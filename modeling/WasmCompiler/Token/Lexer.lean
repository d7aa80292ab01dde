import WasmCompiler.Text.Blank
import WasmCompiler.Token.Basic

/-!
# Reading tokens

`spell` recognises the token at the head of a list of characters and says how many characters it
takes; positions and blanks are not its concern. `Cursor.next` skips blanks and comments, spells
one token and moves past it. `Cursor.scan` repeats that to the end of the text.

A character that starts no token stops the reading for good: the cursor stays on it. A number
that is too large is an error too, but the cursor moves past it.
-/

namespace WasmCompiler

open Number (Double)

/-! ### Spelling -/

/-- What stands at the head of a text. -/
inductive Spelling where
  | token (kind : TokenKind) (length : Nat)
  | overflow (digits : List Char)
  | illegal
deriving DecidableEq, Repr

/-- How many characters the head takes up; a character that starts no token is not taken. -/
def Spelling.length : Spelling → Nat
  | .token _ length => length
  | .overflow digits => digits.length
  | .illegal => 0

/-- The lexeme of a spelling that begins with `c` at a position. -/
def Spelling.lexeme (c : Char) (position : Position) : Spelling → Lexeme
  | .token kind _ => .ok ⟨kind, position.location⟩
  | .overflow digits => .error (.integerOverflow (String.ofList digits) position.location)
  | .illegal => .error (.illegalCharacter c position)

/-- The largest integer literal. -/
def maxInteger : Nat := 0x7fffffff

/-- The number that decimal digits stand for. -/
def digitsValue (digits : List Char) : Nat :=
  digits.foldl (fun n c => 10 * n + (c.toNat - '0'.toNat)) 0

/-- Whether a character can continue a word. -/
def isWordChar (c : Char) : Bool :=
  c.isAlphanum || c = '_'

/-- Whether a character can start a word. -/
def isWordStart (c : Char) : Bool :=
  c.isAlpha || c = '_'

/-- The digits after a point at the head of a text. -/
def fractionDigits : List Char → List Char
  | '.' :: cs => cs.takeWhile Char.isDigit
  | _ => []

/-- A number. A point belongs to it only if a digit follows the point. -/
def spellNumber (cs : List Char) : Spelling :=
  let whole := cs.takeWhile Char.isDigit
  let fraction := fractionDigits (cs.dropWhile Char.isDigit)
  if fraction.isEmpty then
    if digitsValue whole ≤ maxInteger then .token (.integer (digitsValue whole)) whole.length
    else .overflow whole
  else
    .token (.float (.ofRatio (digitsValue (whole ++ fraction)) (Nat.pow 10 fraction.length)))
      (whole.length + 1 + fraction.length)

/-- A string after its opening quote. It has no escapes and ends at the next quote or with the
text. -/
def spellString (cs : List Char) : Spelling :=
  let text := cs.takeWhile (· ≠ '\'')
  .token (.string (String.ofList text)) (1 + min (text.length + 1) cs.length)

/-- An operator or delimiter, two characters before one. -/
def spellOperator (c : Char) (cs : List Char) : Spelling :=
  match cs.head?.bind fun d => TokenKind.pairs.lookup (c, d) with
  | some kind => .token kind 2
  | none =>
    match TokenKind.singles.lookup c with
    | some kind => .token kind 1
    | none => .illegal

/-- The token at the head of `c :: cs`, where `c` is not blank. -/
def spell (c : Char) (cs : List Char) : Spelling :=
  if c.isDigit then spellNumber (c :: cs)
  else if isWordStart c then
    let word := (c :: cs).takeWhile isWordChar
    .token (.ofWord (String.ofList word)) word.length
  else if c = '\'' then spellString cs
  else spellOperator c cs

/-! ### Cursors -/

/-- What is left of a text, and where it begins. -/
structure Cursor where
  rest : List Char
  position : Position
deriving DecidableEq, Repr, Inhabited

namespace Cursor

/-- The beginning of a text. -/
def ofString (text : String) : Cursor :=
  ⟨text.toList, .start⟩

/-- Moves past characters. -/
def advance (c : Cursor) (count : Nat) : Cursor :=
  ⟨c.rest.drop count, c.position.afterAll (c.rest.take count)⟩

/-- Skips blanks, and comments from `//` to the end of the line. -/
def skipBlanks (inComment : Bool) : List Char → Position → Cursor
  | [], p => ⟨[], p⟩
  | c :: cs, p =>
    if inComment then skipBlanks (c ≠ '\n') cs (p.after c)
    else if Text.isBlank c then skipBlanks false cs (p.after c)
    else if c = '/' ∧ cs.head? = some '/' then skipBlanks true cs (p.after c)
    else ⟨c :: cs, p⟩

/-- The place of the next token. -/
def skip (c : Cursor) : Cursor :=
  skipBlanks false c.rest c.position

/-- Reads one token. At the end of the text this is `endOfInput`, again and again. -/
def next (c : Cursor) : Lexeme × Cursor :=
  let start := c.skip
  match start.rest with
  | [] => (.ok ⟨.endOfInput, start.position.location⟩, start)
  | ch :: cs =>
    ((spell ch cs).lexeme ch start.position, start.advance (spell ch cs).length)

/-- Reads one token and stays where it was. -/
def peek (c : Cursor) : Lexeme :=
  c.next.1

/-- Whether nothing but this lexeme can follow it. -/
def isLast : Lexeme → Bool
  | .ok token => token.kind = .endOfInput
  | .error (.illegalCharacter ..) => true
  | .error (.integerOverflow ..) => false

/-! ### Progress -/

theorem length_skipBlanks_le (inComment : Bool) (cs : List Char) (p : Position) :
    (skipBlanks inComment cs p).rest.length ≤ cs.length := by
  induction cs generalizing inComment p with
  | nil => simp [skipBlanks]
  | cons c cs ih =>
    unfold skipBlanks
    split
    · exact Nat.le_succ_of_le (ih _ _)
    · split
      · exact Nat.le_succ_of_le (ih _ _)
      · split
        · exact Nat.le_succ_of_le (ih _ _)
        · exact Nat.le_refl _

/-- The first character of a run belongs to it. -/
theorem length_takeWhile_pos {f : Char → Bool} {c : Char} (h : f c) (cs : List Char) :
    0 < ((c :: cs).takeWhile f).length := by
  simp [h]

/-- Whatever is spelled takes at least one character. -/
theorem length_spell_pos {c : Char} {cs : List Char} (h : spell c cs ≠ .illegal) :
    0 < (spell c cs).length := by
  unfold spell at h ⊢
  split
  · -- a number has its first digit
    rename_i hc
    have := length_takeWhile_pos (f := Char.isDigit) hc cs
    simp only [spellNumber]
    split
    · split <;> simp only [Spelling.length] <;> omega
    · simp only [Spelling.length]; omega
  · split
    · -- a character that starts a word can also continue one
      rename_i hc
      have hword : isWordChar c := by
        simp only [isWordStart, isWordChar, Char.isAlphanum, Bool.or_eq_true] at hc ⊢
        exact hc.imp_left .inl
      exact length_takeWhile_pos hword cs
    · split
      · -- a string has its opening quote
        simp only [spellString, Spelling.length]; omega
      · -- an operator has one or two characters, or is illegal
        simp_all only [spellOperator]
        split
        · simp [Spelling.length]
        · split
          · simp [Spelling.length]
          · simp_all

/-- Only an illegal character or the end of the text is the last lexeme. -/
theorem spell_ne_illegal {c : Char} {cs : List Char} {p : Position}
    (h : isLast ((spell c cs).lexeme c p) = false) : spell c cs ≠ .illegal := by
  intro he
  simp [he, Spelling.lexeme, isLast] at h

/-- Unless it is the last, a lexeme takes at least one character. -/
theorem length_next_lt {c : Cursor} (h : isLast c.next.1 = false) :
    c.next.2.rest.length < c.rest.length := by
  have hskip : c.skip.rest.length ≤ c.rest.length := length_skipBlanks_le _ _ _
  simp only [next] at h ⊢
  split at h
  · -- at the end of the text the lexeme would be the last
    simp [isLast] at h
  · rename_i ch cs hrest
    have hlen : c.skip.rest.length = cs.length + 1 := by simp [hrest]
    have hpos := length_spell_pos (spell_ne_illegal h)
    simp only [advance, List.length_drop]
    omega

/-! ### Whole texts -/

/-- All lexemes from here on, each with the cursor after it. The last one is the end of the text
or an illegal character; reading on would repeat it forever. -/
def scan (c : Cursor) : List (Lexeme × Cursor) :=
  let step := c.next
  if isLast step.1 then [step] else step :: step.2.scan
termination_by c.rest.length
decreasing_by
  rename_i h
  exact length_next_lt (by simpa [step] using h)

/-- The tokens of some lexemes up to the first error, and the cursor where reading stopped. -/
def collect (stop : Cursor) : List (Lexeme × Cursor) → Except LexError (List Token) × Cursor
  | [] => (.ok [], stop)
  | (.error e, c) :: _ => (.error e, c)
  | (.ok token, c) :: rest =>
    let (tokens, last) := collect c rest
    (tokens.map (token :: ·), last)

/-- All tokens from here on, `endOfInput` last. -/
def tokenize (c : Cursor) : Except LexError (List Token) × Cursor :=
  collect c c.scan

end Cursor

/-- The lexemes of a text. -/
def lexemes (text : String) : List Lexeme :=
  (Cursor.ofString text).scan.map (·.1)

/-- The tokens of a text. -/
def tokenize (text : String) : Except LexError (List Token) :=
  (Cursor.ofString text).tokenize.1

end WasmCompiler
