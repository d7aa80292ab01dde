import WasmCompiler.Proofs.Token.Tiling
import WasmCompiler.Proofs.Tree.Facing
import WasmCompiler.Proofs.Tree.Rendering

/-!
# Tokens as they are written

What `TokenKind.written` gives for a token is a lexeme of this token in front of a blank or the end
of the text (`isLexeme_written`): a blank ends a number or a word, no operator of two characters
ends with one, and a string is ended by its quote. What follows the blank does not matter.

So reading undoes writing: a text of written tokens with blanks between them has these tokens and
no others (`tokenize_of_isSpaced`).
-/

namespace WasmCompiler

/-- Whether a token is read back from what is written for it. -/
def TokenKind.isWritable : TokenKind → Bool
  | .integer value => value ≤ maxInteger
  | .float _ => false
  | .string text => isQuotable text
  | .identifier name => isName name
  | .endOfInput => false
  | _ => true

/-- Nothing follows, or a blank does. -/
def EndsToken (rest : List Char) : Prop :=
  ∀ c ∈ rest.head?, Text.isBlank c

variable {rest cs lexeme : List Char} {kind : TokenKind} {kinds : List TokenKind}

/-! ### What is written is a lexeme

For each kind of token, one reason why it ends where it was written to end. -/

theorem EndsToken.not_isBlank (hrest : EndsToken rest) {c : Char} (hc : c ∈ rest.head?) :
    Text.isBlank c ≠ false := by
  simp [hrest c hc]

theorem EndsToken.isWordChar_eq_false (hrest : EndsToken rest) :
    ∀ c ∈ rest.head?, isWordChar c = false := by
  intro c hc
  by_contra hword
  exact hrest.not_isBlank hc (isBlank_of_isWordChar (by simpa using hword))

theorem EndsToken.isDigit_eq_false (hrest : EndsToken rest) :
    ∀ c ∈ rest.head?, c.isDigit = false := by
  intro c hc
  have hword := hrest.isWordChar_eq_false c hc
  simp only [isWordChar, Char.isAlphanum, Bool.or_eq_false_iff] at hword
  exact hword.1.2

theorem EndsToken.not_hasFraction (hrest : EndsToken rest) : ¬HasFraction rest := by
  intro hfraction
  unfold HasFraction at hfraction
  split at hfraction
  · exact hrest.not_isBlank rfl (by decide)
  · exact hfraction

/-- The decimal digits of a number that is not too large are read as that number. -/
theorem isLexeme_integer {value : Nat} (hvalue : value ≤ maxInteger) (hrest : EndsToken rest) :
    IsLexeme (.integer value) (toString value).toList rest := by
  rw [Nat.toString_eq_ofList_toDigits, String.toList_ofList]
  have hdigits : ∀ c ∈ Nat.toDigits 10 value, c.isDigit := fun c hc =>
    Nat.isDigit_of_mem_toDigits (by decide) (by decide) hc
  have hrun : IsRun Char.isDigit (Nat.toDigits 10 value) rest :=
    ⟨Nat.toDigits_ne_nil, hdigits, hrest.isDigit_eq_false⟩
  -- printing and reading decimal digits are inverse to each other
  have hread : digitsValue (Nat.toDigits 10 value) = value := Nat.ofDigitChars_ten_toDigits
  have hlexeme := IsLexeme.integer hrun hrest.not_hasFraction (by rwa [hread])
  rwa [hread] at hlexeme

/-- A string is ended by its quote, so anything may follow. -/
theorem isLexeme_string {text : String} (htext : isQuotable text) :
    IsLexeme (.string text) ("'" ++ text ++ "'").toList rest := by
  have hbody : '\'' ∉ text.toList := fun hquote => by
    simpa using List.all_eq_true.mp htext '\'' hquote
  have hlexeme : IsLexeme (.string (String.ofList text.toList))
      ('\'' :: (text.toList ++ ['\''])) rest := .string hbody
  rw [String.ofList_toList] at hlexeme
  have hchars : ("'" ++ text ++ "'").toList = '\'' :: (text.toList ++ ['\'']) := by simp
  rwa [hchars]

/-- A word is taken as a whole. -/
theorem isRun_word {word : String} (hstart : word.toList.head?.any isWordStart)
    (hword : word.toList.all isWordChar) (hrest : EndsToken rest) :
    IsRun isWordChar word.toList rest ∧ ∀ c ∈ word.toList.head?, isWordStart c := by
  cases hcs : word.toList with
  | nil => simp [hcs] at hstart
  | cons c cs =>
    rw [hcs] at hstart hword
    exact ⟨⟨by simp, List.all_eq_true.mp hword, hrest.isWordChar_eq_false⟩, by simpa using hstart⟩

/-- A word that is not a keyword is a name. -/
theorem isLexeme_identifier {name : String} (hname : isName name) (hrest : EndsToken rest) :
    IsLexeme (.identifier name) name.toList rest := by
  simp only [isName, Bool.and_eq_true, Option.isNone_iff_eq_none] at hname
  obtain ⟨hrun, hstart⟩ := isRun_word hname.1.1 hname.1.2 hrest
  have hkeyword : ∀ kind, (String.ofList name.toList, kind) ∉ TokenKind.keywords := by
    intro kind hmem
    rw [String.ofList_toList] at hmem
    simpa using List.lookup_eq_none_iff.mp hname.2 _ hmem
  have hlexeme := IsLexeme.identifier hrun hstart hkeyword
  rwa [String.ofList_toList] at hlexeme

/-- No operator of two characters ends with a blank, so the first of them stands on its own. -/
theorem isLexeme_single {c : Char} (hentry : (c, kind) ∈ TokenKind.singles)
    (hrest : EndsToken rest) : IsLexeme kind [c] rest := by
  have hseconds : ∀ entry ∈ TokenKind.pairs, Text.isBlank entry.1.2 = false := by decide
  refine .single hentry (fun d hd found hpair => ?_) fun hcomment => ?_
  · exact hrest.not_isBlank hd (hseconds _ hpair)
  · exact hrest.not_isBlank hcomment.2 (by decide)

/-- A kind with one spelling. It is looked up where `spelling?` looks. -/
theorem isLexeme_spelled {word : String} (hword : kind.spelling? = some word)
    (hrest : EndsToken rest) : IsLexeme kind word.toList rest := by
  have hkeywords : ∀ entry ∈ TokenKind.keywords, entry.1.toList.head?.any isWordStart ∧
      entry.1.toList.all isWordChar := by
    decide
  -- a pair of characters, a single one or a keyword, in the order in which they are looked up
  unfold TokenKind.spelling? at hword
  split at hword
  · rename_i c d found hfound
    obtain rfl : found = kind := by simpa using List.find?_some hfound
    rw [← Option.some.inj hword, String.toList_ofList]
    exact .pair (List.mem_of_find?_eq_some hfound)
  · split at hword
    · rename_i c found hfound
      obtain rfl : found = kind := by simpa using List.find?_some hfound
      rw [← Option.some.inj hword, String.toList_ofList]
      exact isLexeme_single (List.mem_of_find?_eq_some hfound) hrest
    · obtain ⟨⟨word', found⟩, hfound, rfl⟩ := Option.map_eq_some_iff.mp hword
      obtain rfl : found = kind := by simpa using List.find?_some hfound
      have hmem := List.mem_of_find?_eq_some hfound
      obtain ⟨hstart, hall⟩ := hkeywords _ hmem
      obtain ⟨hrun, hstart⟩ := isRun_word hstart hall hrest
      exact .keyword hrun hstart (by rwa [String.ofList_toList])

/-- Every token that can be written is read back from what is written for it. -/
theorem isLexeme_written (hkind : kind.isWritable) (hrest : EndsToken rest) :
    IsLexeme kind kind.written.toList rest := by
  cases kind with
  | integer value => exact isLexeme_integer (by simpa [TokenKind.isWritable] using hkind) hrest
  | float value => cases hkind
  | string text => exact isLexeme_string hkind
  | identifier name => exact isLexeme_identifier hkind hrest
  | endOfInput => cases hkind
  | _ => exact isLexeme_spelled rfl hrest

/-! ### Texts of written tokens

Gaps and lexemes are put together from the end of the text on. -/

/-- If all lexemes have a kind, all are tokens. -/
theorem exists_tokens_of_kinds {ls : List Lexeme} (h : ls.map Lexeme.kind? = kinds.map some) :
    ∃ tokens : List Token, ls = tokens.map .ok ∧ tokens.map (·.kind) = kinds := by
  induction ls generalizing kinds with
  | nil => exact ⟨[], rfl, by simpa using h⟩
  | cons lexeme ls ih =>
    cases kinds with
    | nil => cases h
    | cons kind kinds =>
      obtain ⟨hkind, hkinds⟩ := List.cons.inj h
      obtain ⟨tokens, rfl, rfl⟩ := ih hkinds
      cases lexeme with
      | error e => cases hkind
      | ok token =>
        obtain rfl : token.kind = kind := Option.some.inj hkind
        exact ⟨token :: tokens, rfl, rfl⟩

/-- A lexeme in front of a text adds its token. -/
theorem IsLexeme.lexesTo (hlexeme : IsLexeme kind lexeme rest) (hrest : LexesTo rest kinds) :
    LexesTo (lexeme ++ rest) (kind :: kinds) := by
  have hspells := hlexeme.spells
  cases lexeme with
  | nil => exact absurd hlexeme.length_pos (by simp)
  | cons c cs =>
    obtain ⟨⟨hblank, hcomment⟩, d, ds, hsplit, hspell⟩ := hspells
    obtain ⟨rfl, rfl⟩ := List.cons.inj hsplit
    exact hrest.token cs hblank hcomment hspell hlexeme.ne_endOfInput

/-- Blanks in front add no token. -/
theorem LexesTo.blanks {gap : List Char} (hgap : ∀ c ∈ gap, Text.isBlank c)
    (hrest : LexesTo rest kinds) : LexesTo (gap ++ rest) kinds := by
  induction gap with
  | nil => exact hrest
  | cons c gap ih =>
    rw [List.forall_mem_cons] at hgap
    exact (ih hgap.2).blank hgap.1

/-- Lexemes that are all tokens are the tokens of the text. -/
theorem LexesTo.tokenize_eq {text : String} (h : LexesTo text.toList kinds) :
    (WasmCompiler.tokenize text).map (List.map Token.kind) = .ok kinds := by
  have hlexemes : (WasmCompiler.lexemes text).map Lexeme.kind? = kinds.map some := by
    simpa using h.lexemes
  obtain ⟨tokens, htokens, hkinds⟩ := exists_tokens_of_kinds hlexemes
  rw [← List.append_nil (tokens.map _)] at htokens
  rw [tokenize_of_lexemes htokens, ← hkinds, List.mapM_nil]
  show Except.ok ((tokens ++ []).map Token.kind) = _
  rw [List.append_nil]

/-- The text is these tokens as they are written, with one blank or more between each two. -/
inductive IsSpaced : List TokenKind → List Char → Prop where
  | nil : IsSpaced [] []
  | singleton (kind : TokenKind) : IsSpaced [kind] kind.written.toList
  | cons {first second : TokenKind} {others : List TokenKind} {gap rest : List Char}
      (hgap : gap ≠ []) (hblank : ∀ c ∈ gap, Text.isBlank c)
      (hrest : IsSpaced (second :: others) rest) :
      IsSpaced (first :: second :: others) (first.written.toList ++ (gap ++ rest))

/-- By induction over the spacing: the first token is a lexeme, and the blanks behind it are a
gap. -/
theorem IsSpaced.lexesTo (h : IsSpaced kinds cs) (hkinds : ∀ kind ∈ kinds, kind.isWritable) :
    LexesTo cs (kinds ++ [.endOfInput]) := by
  induction h with
  | nil => exact lexesTo_nil
  | singleton kind =>
    have hlexeme : IsLexeme kind kind.written.toList [] :=
      isLexeme_written (hkinds kind List.mem_cons_self) (by simp [EndsToken])
    simpa using hlexeme.lexesTo lexesTo_nil
  | @cons first second others gap rest hgap hblank _ ih =>
    rw [List.forall_mem_cons] at hkinds
    have hrest : EndsToken (gap ++ rest) := by
      obtain ⟨c, gap, rfl⟩ := List.exists_cons_of_ne_nil hgap
      simpa [EndsToken] using hblank c List.mem_cons_self
    exact (isLexeme_written hkinds.1 hrest).lexesTo ((ih hkinds.2).blanks hblank)

/-- Reading undoes writing: tokens that are written one after another, with blanks of any kind
between them, are read back in order, and nothing but the end of the text follows them. -/
theorem tokenize_of_isSpaced {text : String} (hkinds : ∀ kind ∈ kinds, kind.isWritable)
    (htext : IsSpaced kinds text.toList) :
    (tokenize text).map (List.map Token.kind) = .ok (kinds ++ [.endOfInput]) :=
  (htext.lexesTo hkinds).tokenize_eq

/-- A keyword and a name that begins like one, a string with a line feed and slashes in it, two
operators that would be one if they stood together, and the greatest number. -/
theorem tokenize_of_isSpaced_line :
    (tokenize "let\tlets = 'a\n// é' -\u2003> 2147483647").map (List.map Token.kind) =
      .ok [.kwLet, .identifier "lets", .assign, .string "a\n// é", .minus, .gt,
        .integer 2147483647, .endOfInput] := by
  have hspace : ∀ c ∈ [' '], Text.isBlank c := List.forall_mem_singleton.mpr (by decide)
  have htab : ∀ c ∈ ['\t'], Text.isBlank c := List.forall_mem_singleton.mpr (by decide)
  have hwide : ∀ c ∈ ['\u2003'], Text.isBlank c := List.forall_mem_singleton.mpr (by decide)
  have hwritable : ∀ kind ∈ [TokenKind.kwLet, .identifier "lets", .assign, .string "a\n// é",
      .minus, .gt, .integer 2147483647], kind.isWritable := by decide
  refine tokenize_of_isSpaced hwritable ?_
  exact .cons (by decide) htab <| .cons (by decide) hspace <| .cons (by decide) hspace <|
    .cons (by decide) hspace <| .cons (by decide) hwide <| .cons (by decide) hspace <|
    .singleton _

end WasmCompiler
