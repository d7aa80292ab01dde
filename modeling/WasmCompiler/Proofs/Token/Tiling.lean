import Mathlib.Data.List.Induction
import Mathlib.Data.List.TakeWhile
import WasmCompiler.Token.Lexer

/-!
# Texts tiled by tokens

A text is cut into gaps and lexemes: `IsGap` says what may stand between two tokens, `IsLexeme`
what a token of some kind is written as, and `IsFault` where no token can be read. What follows is
a part of all three, as a token goes on for as long as it can. `Tiles` puts the pieces one after
another and locates each token by the characters before it.

Every text can be cut in this way (`exists_tiling`), and reading gives the tokens of the pieces
(`Tiles.scan_eq`). So the tokens of a text, their places and the error, if there is one, are
those of its pieces and no others (`tokenize_tiling`).

* `exists_piece` is the case distinction on the first character behind a gap; every character begins
  a lexeme or a fault.
* `IsLexeme.spells` and `IsFault.spells` say that the reader spells the pieces as what they are.
* The tilings are unique by this: reading is a function, and every tiling says what it gives.
-/

namespace WasmCompiler

/-! ### Characters

The classes of characters by which a token is told from the next. -/

theorem isAlpha_eq (c : Char) :
    c.isAlpha = (decide ('A'.val ≤ c.val ∧ c.val ≤ 'Z'.val) ||
      (decide ('a'.val ≤ c.val) && decide (c.val ≤ 'z'.val))) :=
  rfl

theorem isBlank_of_isWordChar {c : Char} (h : isWordChar c) : Text.isBlank c = false := by
  have hrange : 48 ≤ c.toNat ∧ c.toNat ≤ 122 := by
    simp only [isWordChar, Char.isAlphanum, isAlpha_eq, Char.isDigit, Bool.or_eq_true,
      Bool.and_eq_true, decide_eq_true_eq, ge_iff_le, UInt32.le_iff_toNat_le] at h
    rcases h with ((h | h) | h) | rfl
    · exact ⟨Nat.le_trans (by decide) h.1, Nat.le_trans h.2 (by decide)⟩
    · exact ⟨Nat.le_trans (by decide) h.1, Nat.le_trans h.2 (by decide)⟩
    · exact ⟨h.1, Nat.le_trans h.2 (by decide)⟩
    · decide
  simp only [Text.isBlank, Text.blankRanges, List.any_cons, List.any_nil]
  simp
  omega

/-- A word begins with no digit, so the first character tells words from numbers. -/
theorem not_isDigit_of_isWordStart {c : Char} (hc : isWordStart c) : ¬c.isDigit := by
  intro hdigit
  simp only [isWordStart, isAlpha_eq, Char.isDigit, Bool.or_eq_true,
    Bool.and_eq_true, decide_eq_true_eq, ge_iff_le, UInt32.le_iff_toNat_le] at hc hdigit
  have hle : c.val.toNat ≤ 57 := hdigit.2
  rcases hc with (hc | hc) | rfl
  · exact absurd (Nat.le_trans hc.1 hle) (by decide)
  · exact absurd (Nat.le_trans hc.1 hle) (by decide)
  · exact absurd hle (by decide)

/-! ### Places

A place is a function of the characters before it. -/

/-- The place after some characters from the beginning of a text. -/
def Location.after (before : List Char) : Location :=
  ⟨1 + before.count '\n', 1 + (before.reverse.takeWhile (· ≠ '\n')).length⟩

/-- Reading keeps count of lines and columns. -/
theorem Position.afterAll_start (cs : List Char) :
    Position.start.afterAll cs = ⟨cs.length, .after cs⟩ := by
  induction cs using List.reverseRecOn with
  | nil => rfl
  | append_singleton cs c ih =>
    rw [Position.afterAll_append, ih]
    by_cases hc : c = '\n'
    · subst hc
      simp [Position.after, Location.after]
      omega
    · simp [Position.after, Location.after, hc, List.takeWhile_cons_of_pos]
      omega

/-! ### Pieces -/

/-- Blanks and comments before `rest`. A comment goes on to a line feed or to the end of the
text. -/
inductive IsGap (rest : List Char) : List Char → Prop where
  | nil : IsGap rest []
  | blank {c : Char} {gap : List Char} (hblank : Text.isBlank c) (hgap : IsGap rest gap) :
      IsGap rest (c :: gap)
  | comment {body gap : List Char} (hbody : '\n' ∉ body)
      (hend : ∀ c ∈ (gap ++ rest).head?, c = '\n') (hgap : IsGap rest gap) :
      IsGap rest ('/' :: '/' :: (body ++ gap))

/-- Characters of one class before `rest`, as many as there are. -/
structure IsRun (f : Char → Bool) (run rest : List Char) : Prop where
  ne_nil : run ≠ []
  all : ∀ c ∈ run, f c
  ends : ∀ c ∈ rest.head?, f c = false

/-- A point and a digit. -/
def HasFraction : List Char → Prop
  | '.' :: d :: _ => d.isDigit
  | _ => False

/-- The characters of one token of a kind before `rest`. -/
inductive IsLexeme : TokenKind → (lexeme rest : List Char) → Prop where
  | integer {run rest : List Char} (hrun : IsRun Char.isDigit run rest)
      (hwhole : ¬HasFraction rest) (hfits : digitsValue run ≤ maxInteger) :
      IsLexeme (.integer (digitsValue run)) run rest
  | float {whole fraction rest : List Char} (hwhole : whole ≠ [])
      (hdigits : ∀ c ∈ whole, c.isDigit) (hfraction : IsRun Char.isDigit fraction rest) :
      IsLexeme (.float (.ofRatio (digitsValue (whole ++ fraction)) (Nat.pow 10 fraction.length)))
        (whole ++ '.' :: fraction) rest
  | keyword {run rest : List Char} {kind : TokenKind} (hrun : IsRun isWordChar run rest)
      (hstart : ∀ c ∈ run.head?, isWordStart c)
      (hkeyword : (String.ofList run, kind) ∈ TokenKind.keywords) : IsLexeme kind run rest
  | identifier {run rest : List Char} (hrun : IsRun isWordChar run rest)
      (hstart : ∀ c ∈ run.head?, isWordStart c)
      (hname : ∀ kind, (String.ofList run, kind) ∉ TokenKind.keywords) :
      IsLexeme (.identifier (String.ofList run)) run rest
  | string {body rest : List Char} (hbody : '\'' ∉ body) :
      IsLexeme (.string (String.ofList body)) ('\'' :: (body ++ ['\''])) rest
  | openString {body : List Char} (hbody : '\'' ∉ body) :
      IsLexeme (.string (String.ofList body)) ('\'' :: body) []
  | pair {c d : Char} {rest : List Char} {kind : TokenKind}
      (hpair : ((c, d), kind) ∈ TokenKind.pairs) : IsLexeme kind [c, d] rest
  | single {c : Char} {rest : List Char} {kind : TokenKind}
      (hsingle : (c, kind) ∈ TokenKind.singles)
      (hpair : ∀ d ∈ rest.head?, ∀ kind, ((c, d), kind) ∉ TokenKind.pairs)
      (hcomment : ¬(c = '/' ∧ rest.head? = some '/')) : IsLexeme kind [c] rest

/-- No token can be read from the text, for this reason; `before` stands before it. -/
inductive IsFault (before : List Char) : (rest : List Char) → LexError → Prop where
  | illegal {c : Char} {rest : List Char} (hblank : Text.isBlank c = false)
      (hdigit : c.isDigit = false) (hword : isWordStart c = false) (hquote : c ≠ '\'')
      (hpair : ∀ d ∈ rest.head?, ∀ kind, ((c, d), kind) ∉ TokenKind.pairs)
      (hsingle : ∀ kind, (c, kind) ∉ TokenKind.singles) :
      IsFault before (c :: rest) (.illegalCharacter c ⟨before.length, .after before⟩)
  | overflow {run rest : List Char} (hrun : IsRun Char.isDigit run rest)
      (hwhole : ¬HasFraction rest) (hlarge : maxInteger < digitsValue run) :
      IsFault before (run ++ rest) (.integerOverflow (String.ofList run) (.after before))

/-- The characters `tiled`, after `before` and in front of `rest`, are these tokens, each after a
gap. -/
inductive Tiles (rest : List Char) : (before tiled : List Char) → List Token → Prop where
  | nil {before : List Char} : Tiles rest before [] []
  | cons {before gap lexeme tiled : List Char} {kind : TokenKind} {tokens : List Token}
      (hgap : IsGap (lexeme ++ (tiled ++ rest)) gap)
      (hlexeme : IsLexeme kind lexeme (tiled ++ rest))
      (htiles : Tiles rest (before ++ gap ++ lexeme) tiled tokens) :
      Tiles rest before (gap ++ lexeme ++ tiled) (⟨kind, .after (before ++ gap)⟩ :: tokens)

/-- The text is these tokens, and nothing but a gap follows them. -/
def IsTiled (text : List Char) (tokens : List Token) : Prop :=
  ∃ tiled gap, text = tiled ++ gap ∧ Tiles gap [] tiled tokens ∧ IsGap [] gap

/-- The text begins with these tokens and has a fault after them. -/
def IsTiledTo (text : List Char) (tokens : List Token) (e : LexError) : Prop :=
  ∃ tiled gap rest, text = tiled ++ (gap ++ rest) ∧ Tiles (gap ++ rest) [] tiled tokens ∧
    IsGap rest gap ∧ IsFault (tiled ++ gap) rest e

variable {before gap lexeme rest run cs : List Char} {c : Char} {kind : TokenKind}
  {tokens : List Token} {e : LexError} {p : Position}

/-! ### Where a gap ends

A slash belongs to a gap only if another follows. -/

/-- The text is at its end, or a token could begin here: neither a blank nor a comment does. -/
def EndsGap : List Char → Prop
  | [] => True
  | c :: cs => Text.isBlank c = false ∧ ¬(c = '/' ∧ cs.head? = some '/')

/-- A comment is skipped up to its end. -/
theorem Cursor.skipBlanks_comment {body : List Char} (hbody : '\n' ∉ body)
    (hend : ∀ c ∈ rest.head?, c = '\n') (p : Position) :
    skipBlanks true (body ++ rest) p = skipBlanks false rest (p.afterAll body) := by
  induction body generalizing p with
  | nil =>
    cases rest with
    | nil => rfl
    | cons c rest =>
      obtain rfl : c = '\n' := hend c rfl
      rfl
  | cons b body ih =>
    have hb : b ≠ '\n' := fun h => hbody (h ▸ List.mem_cons_self)
    simp only [List.cons_append, skipBlanks, if_true, hb, ne_eq, not_false_eq_true, decide_true]
    exact ih (fun h => hbody (List.mem_cons_of_mem _ h)) _

/-- A gap that ends is skipped as a whole. By induction over its pieces. -/
theorem IsGap.skipBlanks_eq (h : IsGap rest gap) (hrest : EndsGap rest) (p : Position) :
    Cursor.skipBlanks false (gap ++ rest) p = ⟨rest, p.afterAll gap⟩ := by
  induction h generalizing p with
  | nil =>
    cases rest with
    | nil => rfl
    | cons c cs =>
      obtain ⟨hblank, hcomment⟩ := hrest
      simp [Cursor.skipBlanks, hblank, hcomment]
  | blank hblank _ ih => simpa [Cursor.skipBlanks, hblank] using ih _
  | @comment body gap hbody hend _ ih =>
    -- two slashes begin a comment, which is skipped up to its line feed
    have hslashes : Cursor.skipBlanks false ('/' :: '/' :: (body ++ gap) ++ rest) p =
        Cursor.skipBlanks true (body ++ (gap ++ rest)) ((p.after '/').after '/') := by
      have hslash : Text.isBlank '/' = false := by decide
      simp [Cursor.skipBlanks, hslash]
    rw [hslashes, Cursor.skipBlanks_comment hbody hend, ih]
    simp [Position.afterAll_append]

/-- Every text begins with a gap that ends. -/
theorem exists_isGap (cs : List Char) : ∃ gap rest, cs = gap ++ rest ∧ IsGap rest gap ∧
    EndsGap rest := by
  induction hn : cs.length using Nat.strongRecOn generalizing cs with
  | ind n ih =>
    match cs with
    | [] => exact ⟨[], [], rfl, .nil, trivial⟩
    | c :: cs =>
      by_cases hblank : Text.isBlank c
      · obtain ⟨gap, rest, rfl, hgap, hrest⟩ := ih cs.length (by simp [← hn]) cs rfl
        exact ⟨c :: gap, rest, rfl, .blank hblank hgap, hrest⟩
      · by_cases hcomment : c = '/' ∧ cs.head? = some '/'
        · -- the comment ends in front of the first line feed
          obtain ⟨rfl, hslash⟩ := hcomment
          obtain ⟨ds, rfl⟩ := List.head?_eq_some_iff.mp hslash
          have hle := (List.dropWhile_sublist (l := ds) (· ≠ '\n')).length_le
          obtain ⟨gap, rest, hsplit, hgap, hrest⟩ :=
            ih _ (by simp only [← hn, List.length_cons]; omega) (ds.dropWhile (· ≠ '\n')) rfl
          refine ⟨'/' :: '/' :: (ds.takeWhile (· ≠ '\n') ++ gap), rest, ?_, ?_, hrest⟩
          · simp only [List.cons_append, List.append_assoc, ← hsplit,
              List.takeWhile_append_dropWhile]
          · refine .comment (fun h => ?_) (fun c hc => ?_) hgap
            · simpa using List.mem_takeWhile_imp h
            · rw [← hsplit] at hc
              have hstop := List.head?_dropWhile_not (· ≠ '\n') ds
              rw [Option.mem_def.mp hc] at hstop
              simpa using hstop
        · exact ⟨[], c :: cs, rfl, .nil, by simpa using hblank, hcomment⟩

/-! ### What a token is written as

The cases go by the first character. -/

/-- Characters of one class are taken up to the first other character. -/
theorem takeWhile_append_of_head {f : Char → Bool} (hall : ∀ c ∈ run, f c)
    (hends : ∀ c ∈ rest.head?, f c = false) : (run ++ rest).takeWhile f = run := by
  rw [List.takeWhile_append_of_pos hall]
  cases rest with
  | nil => simp
  | cons c rest => rw [List.takeWhile_cons_of_neg (by simp [hends c rfl]), List.append_nil]

/-- A run is what is taken, since the character behind it is of another class. -/
theorem IsRun.takeWhile_eq {f : Char → Bool} (h : IsRun f run rest) :
    (run ++ rest).takeWhile f = run :=
  takeWhile_append_of_head h.all h.ends

theorem IsRun.dropWhile_eq {f : Char → Bool} (h : IsRun f run rest) :
    (run ++ rest).dropWhile f = rest := by
  rw [List.dropWhile_append_of_pos h.all]
  cases rest with
  | nil => rfl
  | cons c rest => rw [List.dropWhile_cons_of_neg (by simp [h.ends c rfl])]

/-- A character of a class begins a run of it. -/
theorem exists_isRun {f : Char → Bool} (hc : f c) (cs : List Char) :
    ∃ run rest, c :: cs = c :: run ++ rest ∧ IsRun f (c :: run) rest := by
  refine ⟨cs.takeWhile f, cs.dropWhile f, by simp, by simp, fun d hd => ?_, fun d hd => ?_⟩
  · obtain rfl | hd := List.mem_cons.mp hd
    · exact hc
    · exact List.mem_takeWhile_imp hd
  · have hstop := List.head?_dropWhile_not f cs
    rw [Option.mem_def.mp hd] at hstop
    simpa using hstop

/-- Digits belong to the fraction exactly after a point. -/
theorem fractionDigits_eq_nil (h : ¬HasFraction rest) : fractionDigits rest = [] := by
  unfold fractionDigits
  split
  · rename_i cs
    cases cs with
    | nil => rfl
    | cons d cs => exact List.takeWhile_cons_of_neg (by simpa [HasFraction] using h)
  · rfl

/-- A digit begins an integer, a number with a fraction or a number that is too large. -/
theorem exists_number (hc : c.isDigit) (cs : List Char) :
    (∃ kind lexeme rest, c :: cs = lexeme ++ rest ∧ IsLexeme kind lexeme rest) ∨
      ∃ run rest, c :: cs = run ++ rest ∧ IsRun Char.isDigit run rest ∧ ¬HasFraction rest ∧
        maxInteger < digitsValue run := by
  obtain ⟨run, rest, hsplit, hrun⟩ := exists_isRun hc cs
  rw [hsplit]
  -- digits with a fraction are a float, of any size; others may be too large
  by_cases hfraction : HasFraction rest
  · obtain ⟨d, ds, rfl, hd⟩ : ∃ d ds, rest = '.' :: d :: ds ∧ d.isDigit := by
      unfold HasFraction at hfraction
      split at hfraction
      · exact ⟨_, _, rfl, hfraction⟩
      · exact hfraction.elim
    obtain ⟨fraction, rest, hsplit, hdigits⟩ := exists_isRun hd ds
    rw [hsplit]
    exact .inl ⟨_, _, rest, by simp, .float hrun.ne_nil hrun.all hdigits⟩
  · by_cases hfits : digitsValue (c :: run) ≤ maxInteger
    · exact .inl ⟨_, _, rest, rfl, .integer hrun hfraction hfits⟩
    · exact .inr ⟨_, rest, rfl, hrun, hfraction, by omega⟩

/-- A quote begins a string, which ends at the next quote or with the text. -/
theorem exists_string (cs : List Char) :
    ∃ kind lexeme rest, '\'' :: cs = lexeme ++ rest ∧ IsLexeme kind lexeme rest := by
  have hbody : '\'' ∉ cs.takeWhile (· ≠ '\'') := fun h => by
    simpa using List.mem_takeWhile_imp h
  have hsplit := List.takeWhile_append_dropWhile (p := (· ≠ '\'')) (l := cs)
  have hstop := List.head?_dropWhile_not (· ≠ '\'') cs
  cases hrest : cs.dropWhile (· ≠ '\'') with
  | nil =>
    rw [hrest] at hsplit
    exact ⟨_, '\'' :: cs.takeWhile (· ≠ '\''), [], by rw [List.cons_append, hsplit],
      .openString hbody⟩
  | cons d rest =>
    rw [hrest] at hsplit hstop
    obtain rfl : d = '\'' := by simpa using hstop
    refine ⟨_, '\'' :: (cs.takeWhile (· ≠ '\'') ++ ['\'']), rest, ?_, .string hbody⟩
    rw [List.cons_append, List.append_assoc, List.singleton_append, hsplit]

/-- Where a gap ends, a token or a fault begins. -/
theorem exists_piece (hcs : EndsGap (c :: cs)) :
    (∃ kind lexeme rest, c :: cs = lexeme ++ rest ∧ IsLexeme kind lexeme rest) ∨
      ∀ before, ∃ e, IsFault before (c :: cs) e := by
  obtain ⟨hblank, hcomment⟩ := hcs
  -- the cases are split in the order in which the lexer tries them
  by_cases hdigit : c.isDigit
  · refine (exists_number hdigit cs).imp_right ?_
    rintro ⟨run, rest, hsplit, hrun, hwhole, hlarge⟩ before
    rw [hsplit]
    exact ⟨_, .overflow hrun hwhole hlarge⟩
  by_cases hword : isWordStart c
  · have hchar : isWordChar c := by
      simp only [isWordStart, isWordChar, Char.isAlphanum, Bool.or_eq_true] at hword ⊢
      exact hword.imp_left .inl
    obtain ⟨run, rest, hsplit, hrun⟩ := exists_isRun hchar cs
    have hstart : ∀ d ∈ (c :: run).head?, isWordStart d := by simpa using hword
    refine .inl ?_
    by_cases hkeyword : ∃ kind, (String.ofList (c :: run), kind) ∈ TokenKind.keywords
    · obtain ⟨kind, hkeyword⟩ := hkeyword
      exact ⟨kind, _, rest, hsplit, .keyword hrun hstart hkeyword⟩
    · exact ⟨_, _, rest, hsplit, .identifier hrun hstart (not_exists.mp hkeyword)⟩
  by_cases hquote : c = '\''
  · subst hquote
    exact .inl (exists_string cs)
  by_cases hpair : ∃ d ∈ cs.head?, ∃ kind, ((c, d), kind) ∈ TokenKind.pairs
  · obtain ⟨d, hd, kind, hpair⟩ := hpair
    obtain ⟨rest, rfl⟩ := List.head?_eq_some_iff.mp hd
    exact .inl ⟨kind, [c, d], rest, rfl, .pair hpair⟩
  replace hpair : ∀ d ∈ cs.head?, ∀ kind, ((c, d), kind) ∉ TokenKind.pairs :=
    fun d hd kind h => hpair ⟨d, hd, kind, h⟩
  by_cases hsingle : ∃ kind, (c, kind) ∈ TokenKind.singles
  · obtain ⟨kind, hsingle⟩ := hsingle
    exact .inl ⟨kind, [c], cs, rfl, .single hsingle hpair hcomment⟩
  · exact .inr fun before => ⟨_, .illegal hblank (by simpa using hdigit) (by simpa using hword)
      hquote hpair (not_exists.mp hsingle)⟩

/-! ### What is spelled

What `spell` gives, kind by kind. -/

/-- The head of a text is spelled as `spelling`, and no gap is skipped before. -/
structure Spells (cs : List Char) (spelling : Spelling) : Prop where
  endsGap : EndsGap cs
  spell_eq : ∃ c ds, cs = c :: ds ∧ spell c ds = spelling

/-- A word can stand where a gap ends. -/
theorem endsGap_of_isWordChar (hc : isWordChar c) : EndsGap (c :: cs) := by
  refine ⟨isBlank_of_isWordChar hc, fun hslash => ?_⟩
  rw [hslash.1] at hc
  exact absurd hc (by decide)

theorem lookup_eq_none_of_not_mem {α β : Type} [BEq α] [LawfulBEq α] {table : List (α × β)}
    {k : α} (h : ∀ v, (k, v) ∉ table) : table.lookup k = none := by
  rw [List.lookup_eq_none_iff]
  rintro ⟨k', v⟩ hmem
  simp only [bne_iff_ne, ne_eq]
  rintro rfl
  exact h v hmem

/-- Two characters that are no operator are not found as one. -/
theorem lookup_pairs_eq_none
    (h : ∀ d ∈ rest.head?, ∀ kind, ((c, d), kind) ∉ TokenKind.pairs) :
    (rest.head?.bind fun d => TokenKind.pairs.lookup (c, d)) = none := by
  rw [Option.bind_eq_none_iff]
  exact fun d hd => lookup_eq_none_of_not_mem (h d hd)

/-- A number without a fraction is spelled as its digits. -/
theorem IsRun.spells_number (hrun : IsRun Char.isDigit run rest) (hwhole : ¬HasFraction rest) :
    Spells (run ++ rest) (if digitsValue run ≤ maxInteger
      then .token (.integer (digitsValue run)) run.length else .overflow run) := by
  have htake := hrun.takeWhile_eq
  have hdrop := hrun.dropWhile_eq
  cases run with
  | nil => exact absurd rfl hrun.ne_nil
  | cons c run =>
    have hc := hrun.all c List.mem_cons_self
    refine ⟨endsGap_of_isWordChar (by simp [isWordChar, Char.isAlphanum, hc]), c, run ++ rest,
      rfl, ?_⟩
    rw [List.cons_append] at htake hdrop
    rw [spell, if_pos hc, spellNumber]
    simp only [htake, hdrop, fractionDigits_eq_nil hwhole, List.isEmpty_nil, if_true]

/-- A word is spelled as the keyword that it is, or as a name. -/
theorem IsRun.spells_word (hrun : IsRun isWordChar run rest)
    (hstart : ∀ c ∈ run.head?, isWordStart c) :
    Spells (run ++ rest) (.token (.ofWord (String.ofList run)) run.length) := by
  have htake := hrun.takeWhile_eq
  cases run with
  | nil => exact absurd rfl hrun.ne_nil
  | cons c run =>
    have hc := hstart c rfl
    refine ⟨endsGap_of_isWordChar (hrun.all c List.mem_cons_self), c, run ++ rest, rfl, ?_⟩
    rw [List.cons_append] at htake
    rw [spell, if_neg (not_isDigit_of_isWordStart hc), if_pos hc]
    simp only [htake]

/-- A string is spelled as what stands before the next quote. -/
theorem spells_string {body : List Char} (hbody : '\'' ∉ body) (rest : List Char)
    (hend : ∀ c ∈ rest.head?, c = '\'') :
    Spells ('\'' :: (body ++ rest)) (.token (.string (String.ofList body))
      (1 + min (body.length + 1) (body ++ rest).length)) := by
  refine ⟨⟨by decide, by simp⟩, '\'', body ++ rest, rfl, ?_⟩
  have htake : (body ++ rest).takeWhile (· ≠ '\'') = body := by
    refine takeWhile_append_of_head (fun c hc => ?_) (fun c hc => by simp [hend c hc])
    have hne : c ≠ '\'' := fun h => hbody (h ▸ hc)
    simpa using hne
  rw [spell, if_neg (by decide), if_neg (by decide), if_pos rfl, spellString]
  simp only [htake]

/-- What no number, word or string begins with is spelled as an operator. -/
theorem spell_eq_spellOperator (hdigit : c.isDigit = false) (hword : isWordStart c = false)
    (hquote : c ≠ '\'') (cs : List Char) : spell c cs = spellOperator c cs := by
  rw [spell, if_neg (by simp [hdigit]), if_neg (by simp [hword]), if_neg hquote]

/-- A number with a fraction is spelled up to the end of the fraction. -/
theorem spells_float {whole fraction : List Char} (hwhole : whole ≠ [])
    (hdigits : ∀ c ∈ whole, c.isDigit) (hfraction : IsRun Char.isDigit fraction rest) :
    Spells (whole ++ '.' :: fraction ++ rest)
      (.token (.float (.ofRatio (digitsValue (whole ++ fraction)) (Nat.pow 10 fraction.length)))
        (whole ++ '.' :: fraction).length) := by
  -- the point ends the digits before it
  have hpoint : IsRun Char.isDigit whole ('.' :: fraction ++ rest) :=
    ⟨hwhole, hdigits, by simp⟩
  have htake := hpoint.takeWhile_eq
  have hdrop := hpoint.dropWhile_eq
  cases whole with
  | nil => exact absurd rfl hwhole
  | cons c whole =>
    have hc := hdigits c List.mem_cons_self
    refine ⟨endsGap_of_isWordChar (by simp [isWordChar, Char.isAlphanum, hc]), c,
      whole ++ '.' :: fraction ++ rest, by simp, ?_⟩
    have hfound : fractionDigits ('.' :: fraction ++ rest) = fraction := hfraction.takeWhile_eq
    have hsome : fraction.isEmpty = false := by simpa using hfraction.ne_nil
    rw [List.cons_append, ← List.append_assoc] at htake hdrop
    rw [spell, if_pos hc, spellNumber]
    simp only [htake, hdrop, hfound, hsome, Bool.false_eq_true, if_false]
    simp only [List.length_append, List.length_cons]
    congr 1
    omega

/-- Two characters that are an operator are taken together. -/
theorem spells_pair {d : Char} (hpair : ((c, d), kind) ∈ TokenKind.pairs) :
    Spells (c :: d :: rest) (.token kind 2) := by
  have hplain : ∀ entry ∈ TokenKind.pairs, Text.isBlank entry.1.1 = false ∧ entry.1.1 ≠ '/' ∧
      entry.1.1.isDigit = false ∧ isWordStart entry.1.1 = false ∧ entry.1.1 ≠ '\'' ∧
      TokenKind.pairs.lookup entry.1 = some entry.2 := by
    decide
  obtain ⟨hblank, hslash, hdigit, hword, hquote, hlookup⟩ := hplain _ hpair
  refine ⟨⟨hblank, fun h => hslash h.1⟩, c, d :: rest, rfl, ?_⟩
  rw [spell_eq_spellOperator hdigit hword hquote, spellOperator, List.head?_cons,
    Option.bind_some, hlookup]

/-- A character is an operator by itself if it makes none with the next one. -/
theorem spells_single (hsingle : (c, kind) ∈ TokenKind.singles)
    (hpair : ∀ d ∈ rest.head?, ∀ kind, ((c, d), kind) ∉ TokenKind.pairs)
    (hcomment : ¬(c = '/' ∧ rest.head? = some '/')) : Spells (c :: rest) (.token kind 1) := by
  have hplain : ∀ entry ∈ TokenKind.singles, Text.isBlank entry.1 = false ∧
      entry.1.isDigit = false ∧ isWordStart entry.1 = false ∧ entry.1 ≠ '\'' ∧
      TokenKind.singles.lookup entry.1 = some entry.2 := by
    decide
  obtain ⟨hblank, hdigit, hword, hquote, hlookup⟩ := hplain _ hsingle
  refine ⟨⟨hblank, hcomment⟩, c, rest, rfl, ?_⟩
  rw [spell_eq_spellOperator hdigit hword hquote, spellOperator, lookup_pairs_eq_none hpair]
  simp only [hlookup]

/-- Each lexeme is spelled as its kind and its length, whatever follows. One case for each
constructor. -/
theorem IsLexeme.spells (h : IsLexeme kind lexeme rest) :
    Spells (lexeme ++ rest) (.token kind lexeme.length) := by
  cases h with
  | integer hrun hwhole hfits => simpa [hfits] using hrun.spells_number hwhole
  | float hwhole hdigits hfraction => exact spells_float hwhole hdigits hfraction
  | keyword hrun hstart hkeyword =>
    -- no two keywords are spelled alike
    have hword : ∀ entry ∈ TokenKind.keywords, TokenKind.ofWord entry.1 = entry.2 := by decide
    simpa only [hword _ hkeyword] using hrun.spells_word hstart
  | identifier hrun hstart hname =>
    have hword : TokenKind.ofWord (String.ofList lexeme) = .identifier (String.ofList lexeme) := by
      rw [TokenKind.ofWord, lookup_eq_none_of_not_mem hname]
    simpa only [hword] using hrun.spells_word hstart
  | @string body rest hbody =>
    have hspells := spells_string hbody ('\'' :: rest) (by simp)
    have hlength : 1 + min (body.length + 1) (body ++ '\'' :: rest).length =
        ('\'' :: (body ++ ['\''])).length := by
      simp only [List.length_append, List.length_cons, List.length_nil]
      omega
    rw [hlength] at hspells
    simpa using hspells
  | @openString body hbody =>
    have hspells := spells_string hbody [] (by simp)
    have hlength : 1 + min (body.length + 1) (body ++ []).length = ('\'' :: body).length := by
      simp only [List.length_append, List.length_cons, List.length_nil]
      omega
    rwa [hlength] at hspells
  | pair hpair => exact spells_pair hpair
  | single hsingle hpair hcomment => exact spells_single hsingle hpair hcomment

theorem IsLexeme.ne_endOfInput (h : IsLexeme kind lexeme rest) : kind ≠ .endOfInput := by
  cases h with
  | keyword _ _ hkeyword =>
    have hkinds : ∀ entry ∈ TokenKind.keywords, entry.2 ≠ .endOfInput := by decide
    exact hkinds _ hkeyword
  | pair hpair =>
    have hkinds : ∀ entry ∈ TokenKind.pairs, entry.2 ≠ .endOfInput := by decide
    exact hkinds _ hpair
  | single hsingle =>
    have hkinds : ∀ entry ∈ TokenKind.singles, entry.2 ≠ .endOfInput := by decide
    exact hkinds _ hsingle
  | integer | float | identifier | string | openString => exact nofun

/-- A token has a character, so reading goes on. -/
theorem IsLexeme.length_pos (h : IsLexeme kind lexeme rest) : 0 < lexeme.length := by
  cases h with
  | integer hrun | keyword hrun | identifier hrun => exact List.length_pos_iff.mpr hrun.ne_nil
  | float => exact List.length_pos_iff.mpr (by simp)
  | string | openString | pair | single => simp

/-- A fault is spelled as such, and the error names its place. -/
theorem IsFault.spells (h : IsFault before rest e) :
    ∃ c spelling, rest.head? = some c ∧ Spells rest spelling ∧
      spelling.lexeme c ⟨before.length, .after before⟩ = .error e := by
  cases h with
  | @illegal c rest hblank hdigit hword hquote hpair hsingle =>
    refine ⟨c, .illegal, rfl, ⟨⟨hblank, fun h => ?_⟩, c, rest, rfl, ?_⟩, rfl⟩
    · have hslash : ('/', TokenKind.slash) ∈ TokenKind.singles := by decide
      exact hsingle _ (h.1 ▸ hslash)
    · rw [spell_eq_spellOperator hdigit hword hquote, spellOperator, lookup_pairs_eq_none hpair,
        lookup_eq_none_of_not_mem hsingle]
  | @overflow run rest hrun hwhole hlarge =>
    have hspells := hrun.spells_number hwhole
    rw [if_neg (by omega)] at hspells
    obtain ⟨c, cs, hrest, hspell⟩ := hspells.spell_eq
    exact ⟨c, _, by rw [hrest]; rfl, hspells, rfl⟩

/-! ### Reading

One lexeme at a time, from the place where the one before ended. -/

/-- Reading skips the gap and spells what follows. -/
theorem IsGap.next_eq {spelling : Spelling} (hgap : IsGap rest gap) (hrest : Spells rest spelling)
    (hc : rest.head? = some c) (p : Position) :
    (Cursor.mk (gap ++ rest) p).next = (spelling.lexeme c (p.afterAll gap),
      (Cursor.mk rest (p.afterAll gap)).advance spelling.length) := by
  obtain ⟨hends, d, cs, rfl, hspell⟩ := hrest
  obtain rfl : d = c := by simpa using hc
  simp only [Cursor.next, Cursor.skip, hgap.skipBlanks_eq hends, hspell]

/-- At the end of the text there is no more than a gap. -/
theorem IsGap.scan_eq (hgap : IsGap [] gap) (p : Position) :
    (Cursor.mk gap p).scan.map (·.1) = [.ok ⟨.endOfInput, (p.afterAll gap).location⟩] := by
  have hskip : (Cursor.mk gap p).skip = ⟨[], p.afterAll gap⟩ := by
    have hend : EndsGap [] := trivial
    simpa [Cursor.skip] using hgap.skipBlanks_eq hend p
  have hnext : (Cursor.mk gap p).next =
      (.ok ⟨.endOfInput, (p.afterAll gap).location⟩, ⟨[], p.afterAll gap⟩) := by
    simp only [Cursor.next, hskip]
  rw [Cursor.scan]
  simp [hnext, Cursor.isLast]

/-- Reading stops at a fault with its error, or goes on after it. -/
theorem IsFault.scan_eq (hgap : IsGap rest gap) (h : IsFault (before ++ gap) rest e) :
    ∃ more, (Cursor.mk (gap ++ rest) (Position.start.afterAll before)).scan.map (·.1) =
      .error e :: more := by
  obtain ⟨c, spelling, hc, hspells, herror⟩ := h.spells
  have hnext := hgap.next_eq hspells hc (Position.start.afterAll before)
  rw [← Position.afterAll_append, Position.afterAll_start (before ++ gap), herror] at hnext
  rw [Cursor.scan]
  simp only [hnext]
  split
  · exact ⟨[], rfl⟩
  · exact ⟨_, rfl⟩

/-- Reading gives the tokens of the tiles, one after another. -/
theorem Tiles.scan_eq {tiled : List Char} (h : Tiles rest before tiled tokens) :
    (Cursor.mk (tiled ++ rest) (Position.start.afterAll before)).scan.map (·.1) =
      tokens.map .ok ++
        (Cursor.mk rest (Position.start.afterAll (before ++ tiled))).scan.map (·.1) := by
  induction h with
  | nil => simp
  | @cons before gap lexeme tiled kind tokens hgap hlexeme _ ih =>
    have hspells := hlexeme.spells
    obtain ⟨c, cs, hc, -⟩ := hspells.spell_eq
    have hnext : (Cursor.mk (gap ++ (lexeme ++ (tiled ++ rest)))
        (Position.start.afterAll before)).next = (.ok ⟨kind, .after (before ++ gap)⟩,
          ⟨tiled ++ rest, Position.start.afterAll (before ++ gap ++ lexeme)⟩) := by
      rw [hgap.next_eq hspells (by rw [hc]; rfl), ← Position.afterAll_append]
      simp only [Spelling.lexeme, Spelling.length, Cursor.advance, List.drop_left',
        List.take_left', Position.afterAll_append _ (before ++ gap),
        Position.afterAll_start (before ++ gap)]
    -- the end of the text is no lexeme, so the scan goes on
    have hlast : Cursor.isLast (.ok ⟨kind, .after (before ++ gap)⟩) = false := by
      simpa [Cursor.isLast] using hlexeme.ne_endOfInput
    rw [List.append_assoc, List.append_assoc, Cursor.scan]
    simp only [hnext, hlast, Bool.false_eq_true, if_false, List.map_cons, List.cons_append]
    rw [ih]
    simp only [List.append_assoc]

/-! ### Whole texts

Reading goes on behind a fault, but the first fault is the error. -/

/-- Every text is tiled to its end or up to a fault. -/
theorem exists_tiling (before cs : List Char) :
    (∃ tokens tiled gap, cs = tiled ++ gap ∧ Tiles gap before tiled tokens ∧ IsGap [] gap) ∨
      ∃ tokens tiled gap rest e, cs = tiled ++ (gap ++ rest) ∧
        Tiles (gap ++ rest) before tiled tokens ∧ IsGap rest gap ∧
        IsFault (before ++ tiled ++ gap) rest e := by
  induction hn : cs.length using Nat.strongRecOn generalizing before cs with
  | ind n ih =>
    obtain ⟨gap, rest, rfl, hgap, hrest⟩ := exists_isGap cs
    cases rest with
    | nil => exact .inl ⟨[], [], gap, by simp, .nil, hgap⟩
    | cons c cs =>
      -- a lexeme is not empty, which is what the induction on the length needs
      obtain ⟨kind, lexeme, rest, hsplit, hlexeme⟩ | hfault := exists_piece hrest
      · have hpos : 0 < lexeme.length := hlexeme.length_pos
        rw [hsplit] at hgap hn ⊢
        obtain ⟨tokens, tiled, last, rfl, htiles, hlast⟩ |
            ⟨tokens, tiled, last, rest, e, rfl, htiles, hlast, hfault⟩ :=
          ih rest.length (by simp at hn; omega) (before ++ gap ++ lexeme) rest rfl
        · exact .inl ⟨_, gap ++ lexeme ++ tiled, last, by simp, .cons hgap hlexeme htiles, hlast⟩
        · exact .inr ⟨_, gap ++ lexeme ++ tiled, last, rest, e, by simp,
            .cons hgap hlexeme htiles, hlast, by simpa using hfault⟩
      · obtain ⟨e, hfault⟩ := hfault (before ++ gap)
        exact .inr ⟨[], [], gap, c :: cs, e, rfl, .nil, hgap, by simpa using hfault⟩

/-- The tokens are there if all lexemes are tokens, and else the first error is. -/
theorem Cursor.collect_fst (stop : Cursor) (l : List (Lexeme × Cursor)) :
    (collect stop l).1 = (l.map (·.1)).mapM id := by
  induction l generalizing stop with
  | nil => rfl
  | cons step l ih =>
    obtain ⟨lexeme, c⟩ := step
    cases lexeme with
    | error e => rfl
    | ok token =>
      show (collect c l).1.map (token :: ·) = _
      rw [ih, List.map_cons, List.mapM_cons]
      rfl

/-- Tokens in front of other lexemes are kept. -/
theorem mapM_ok_append (tokens : List Token) (more : List Lexeme) :
    (tokens.map Except.ok ++ more).mapM id = (more.mapM id).map (tokens ++ ·) := by
  induction tokens with
  | nil =>
    rw [List.map_nil, List.nil_append]
    cases more.mapM id <;> rfl
  | cons token tokens ih =>
    rw [List.map_cons, List.cons_append, List.mapM_cons, ih]
    cases more.mapM id <;> rfl

/-- Tokens are read up to the first error. -/
theorem tokenize_of_lexemes {text : String} {more : List Lexeme}
    (h : lexemes text = tokens.map .ok ++ more) :
    tokenize text = (more.mapM id).map (tokens ++ ·) := by
  rw [← mapM_ok_append, ← h]
  exact Cursor.collect_fst ..

/-- A text that is tiled to its end has the tokens of its tiles and then the end of the input. -/
theorem IsTiled.lexemes_eq {text : String} (h : IsTiled text.toList tokens) :
    lexemes text = tokens.map .ok ++ [.ok ⟨.endOfInput, .after text.toList⟩] := by
  obtain ⟨tiled, gap, htext, htiles, hgap⟩ := h
  have hend := hgap.scan_eq (Position.start.afterAll tiled)
  have hscan := htiles.scan_eq
  rw [List.nil_append, hend, ← Position.afterAll_append, ← htext,
    Position.afterAll_start text.toList] at hscan
  exact hscan

/-- A text with a fault has the tokens before it and then its error. -/
theorem IsTiledTo.lexemes_eq {text : String} (h : IsTiledTo text.toList tokens e) :
    ∃ more, lexemes text = tokens.map .ok ++ .error e :: more := by
  obtain ⟨tiled, gap, rest, htext, htiles, hgap, hfault⟩ := h
  obtain ⟨more, hmore⟩ := hfault.scan_eq hgap
  have hscan := htiles.scan_eq
  rw [List.nil_append, hmore, ← htext] at hscan
  exact ⟨more, hscan⟩

theorem Tiles.ne_endOfInput {tiled : List Char} (h : Tiles rest before tiled tokens) :
    ∀ token ∈ tokens, token.kind ≠ .endOfInput := by
  induction h with
  | nil => simp
  | cons _ hlexeme _ ih => exact List.forall_mem_cons.mpr ⟨hlexeme.ne_endOfInput, ih⟩

/-- Every text is tiled, to its end or up to a fault. -/
theorem isTiled_or_isTiledTo (text : List Char) :
    (∃ tokens, IsTiled text tokens) ∨ ∃ tokens e, IsTiledTo text tokens e := by
  obtain ⟨tokens, tiled, gap, htext, htiles, hgap⟩ | ⟨tokens, tiled, gap, rest, e, hrest⟩ :=
    exists_tiling [] text
  · exact .inl ⟨tokens, tiled, gap, htext, htiles, hgap⟩
  · exact .inr ⟨tokens, e, tiled, gap, rest, hrest⟩

/-- A text that is tiled to its end is read without an error. -/
theorem IsTiled.tokenize_eq {text : String} (h : IsTiled text.toList tokens) :
    tokenize text = .ok (tokens ++ [⟨.endOfInput, .after text.toList⟩]) :=
  tokenize_of_lexemes h.lexemes_eq

/-- A text with a fault is refused, with the error of the first one. -/
theorem IsTiledTo.tokenize_eq {text : String} (h : IsTiledTo text.toList tokens e) :
    tokenize text = .error e := by
  obtain ⟨more, hmore⟩ := h.lexemes_eq
  exact tokenize_of_lexemes hmore

/-- Reading a text succeeds exactly if it is tiled by tokens. They are then its tokens, each at
its place, and the end of the text is the last one and no other. Reading fails exactly at a fault
after tokens that tile the text up to it. -/
theorem tokenize_tiling (text : String) :
    (∀ tokens, tokenize text = .ok tokens ↔
      ∃ init, IsTiled text.toList init ∧ (∀ token ∈ init, token.kind ≠ .endOfInput) ∧
        tokens = init ++ [⟨.endOfInput, .after text.toList⟩]) ∧
    ∀ e, tokenize text = .error e ↔
      ∃ tokens, IsTiledTo text.toList tokens e ∧ (∀ token ∈ tokens, token.kind ≠ .endOfInput) ∧
        ∃ more, lexemes text = tokens.map .ok ++ .error e :: more := by
  refine ⟨fun tokens => ⟨fun h => ?_, ?_⟩, fun e => ⟨fun h => ?_, ?_⟩⟩
  · obtain ⟨init, htiled⟩ | ⟨init, e, htiled⟩ := isTiled_or_isTiledTo text.toList
    · have htokens := Except.ok.inj (h.symm.trans htiled.tokenize_eq)
      obtain ⟨tiled, gap, -, htiles, -⟩ := id htiled
      exact ⟨init, htiled, htiles.ne_endOfInput, htokens⟩
    · exact absurd (h.symm.trans htiled.tokenize_eq) nofun
  · rintro ⟨init, htiled, -, rfl⟩
    exact htiled.tokenize_eq
  · obtain ⟨init, htiled⟩ | ⟨init, e', htiled⟩ := isTiled_or_isTiledTo text.toList
    · exact absurd (h.symm.trans htiled.tokenize_eq) nofun
    · obtain rfl : e = e' := Except.error.inj (h.symm.trans htiled.tokenize_eq)
      obtain ⟨tiled, gap, rest, -, htiles, -⟩ := id htiled
      exact ⟨init, htiled, htiles.ne_endOfInput, htiled.lexemes_eq⟩
  · rintro ⟨tokens, htiled, -⟩
    exact htiled.tokenize_eq

end WasmCompiler
