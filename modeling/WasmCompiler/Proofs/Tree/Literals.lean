import WasmCompiler.Compile
import WasmCompiler.Proofs.Tree.Parsing

/-!
# Literals of parsed programs

Integer tokens are in range because the lexer refuses others, and a string literal is in the pool
because the parser put it there. Both carry over to every expression of a parsed program
(`literalsFit_of_parse`), whose string pool also ends below the end of the address space.

For integers the chain is `inRange_spell`, `inRange_next` and `inRange_lexemes`: one token, one step
of the lexer, the whole text. For strings it is the rules that hold of every parser:
`literalsFit_operand` covers what an expression can begin with, `literalsFit_extension` what can be
folded into one, and `makes_program_literalsFit` is what follows for programs.
-/

namespace WasmCompiler

/-! ### Tokens

From the spelling of one token to the lexemes of a text. -/

/-- Whether a token is not an integer that is too large. -/
def TokenKind.inRange : TokenKind → Bool
  | .integer value => value ≤ maxInteger
  | _ => true

/-- Whether a spelling is not a token out of range. -/
def Spelling.inRange : Spelling → Bool
  | .token kind _ => kind.inRange
  | _ => true

/-- The tables of words and operators hold no integers. -/
theorem inRange_of_lookup {α : Type} [BEq α] {table : List (α × TokenKind)} {key : α}
    {kind : TokenKind} (htable : ∀ entry ∈ table, entry.2.inRange)
    (h : table.lookup key = some kind) : kind.inRange := by
  induction table with
  | nil => cases h
  | cons entry table ih =>
    obtain ⟨k, v⟩ := entry
    rw [List.forall_mem_cons] at htable
    rw [List.lookup_cons] at h
    split at h
    · obtain rfl := Option.some.inj h
      exact htable.1
    · exact ih htable.2 h

/-- A number that is too large is an error, not a token. -/
theorem inRange_spellNumber (cs : List Char) : (spellNumber cs).inRange := by
  simp only [spellNumber]
  split
  · split
    · rename_i hmax
      simpa [Spelling.inRange, TokenKind.inRange] using hmax
    · rfl
  · rfl

/-- A word is a keyword or a name. -/
theorem inRange_ofWord (word : String) : (TokenKind.ofWord word).inRange := by
  unfold TokenKind.ofWord
  split
  · rename_i kind hkind
    exact inRange_of_lookup (by decide) hkind
  · rfl

/-- An operator is no integer, whether it has one character or two. -/
theorem inRange_spellOperator (c : Char) (cs : List Char) : (spellOperator c cs).inRange := by
  unfold spellOperator
  split
  · rename_i kind hkind
    obtain ⟨d, -, hlookup⟩ := Option.bind_eq_some_iff.mp hkind
    exact inRange_of_lookup (show ∀ entry ∈ TokenKind.pairs, entry.2.inRange by decide) hlookup
  · split
    · rename_i kind hkind
      exact inRange_of_lookup (by decide) hkind
    · rfl

/-- Whatever a token begins with, it is in range. -/
theorem inRange_spell (c : Char) (cs : List Char) : (spell c cs).inRange := by
  unfold spell
  split
  · exact inRange_spellNumber _
  · split
    · exact inRange_ofWord _
    · split
      · rfl
      · exact inRange_spellOperator c cs

/-- Whether a lexeme is not a token out of range. -/
def Lexeme.inRange : Lexeme → Bool
  | .ok token => token.kind.inRange
  | .error _ => true

/-- One step of the lexer gives a token in range or an error. -/
theorem inRange_next (c : Cursor) : Lexeme.inRange c.next.1 := by
  simp only [Cursor.next]
  split
  · rfl
  · rename_i ch cs _
    have hspell := inRange_spell ch cs
    cases h : spell ch cs with
    | token kind length =>
      rw [h] at hspell
      exact hspell
    | _ => rfl

theorem inRange_scan (c : Cursor) : ∀ step ∈ c.scan, Lexeme.inRange step.1 := by
  induction c using Cursor.scan.induct with
  | case1 c step hlast =>
    rw [Cursor.scan, if_pos hlast]
    simpa using inRange_next c
  | case2 c step hlast ih =>
    rw [Cursor.scan, if_neg hlast, List.forall_mem_cons]
    exact ⟨inRange_next c, ih⟩

/-- All lexemes of a text are in range. -/
theorem inRange_lexemes (text : String) : ∀ lexeme ∈ lexemes text, Lexeme.inRange lexeme := by
  intro lexeme h
  obtain ⟨step, hstep, rfl⟩ := List.mem_map.mp h
  exact inRange_scan _ step hstep

/-! ### Parsers

What holds of a parser in every state that it comes to. -/

/-- A literal is entered only if the pool still ends below the end of the address space. -/
theorem StringPool.limit_intern?_lt {pool pool' : StringPool} {text : String} {offset : Nat}
    (h : pool.intern? text = some (offset, pool')) (hpool : pool.limit < addressSpace) :
    pool'.limit < addressSpace := by
  unfold StringPool.intern? at h
  split at h
  · obtain ⟨-, rfl⟩ := Prod.mk.inj (Option.some.inj h)
    exact hpool
  · split at h
    · rename_i hlimit
      obtain ⟨-, rfl⟩ := Prod.mk.inj (Option.some.inj h)
      exact hlimit
    · cases h

namespace Parse

/-- All tokens before a parser are in range, and its strings lie in the address space. -/
structure InRange (p : Parser) : Prop where
  current : p.current.kind.inRange
  upcoming : ∀ lexeme ∈ p.upcoming, Lexeme.inRange lexeme
  strings : p.strings.limit < addressSpace

/-- What is left after a token was there before. -/
theorem mem_of_mem_dropLexeme {lexeme : Lexeme} {ls : List Lexeme} (h : lexeme ∈ dropLexeme ls) :
    lexeme ∈ ls := by
  unfold dropLexeme at h
  split at h
  · exact h
  · exact h
  · exact List.mem_cons_of_mem _ h

/-- Reading a token and interning a literal keep the tokens in range and the strings in the address
space. -/
theorem invariant_inRange : Invariant InRange where
  advance := by
    intro p p' token h hp
    unfold advance at h
    split at h
    · obtain ⟨rfl, rfl⟩ := EStateM.Result.ok.inj h
      exact hp
    · rename_i next rest hupcoming
      obtain ⟨rfl, rfl⟩ := EStateM.Result.ok.inj h
      -- the current token was one of the upcoming ones
      refine ⟨?_, fun lexeme hmem => hp.upcoming lexeme (mem_of_mem_dropLexeme hmem), hp.strings⟩
      exact hp.upcoming (.ok next) (by rw [hupcoming]; exact List.mem_cons_self)
    · cases h
  intern := by
    intro p p' text location h hp
    unfold intern at h
    split at h
    · rename_i offset strings hintern
      obtain ⟨-, rfl⟩ := EStateM.Result.ok.inj h
      exact ⟨hp.current, hp.upcoming, StringPool.limit_intern?_lt hintern hp.strings⟩
    · cases h

/-- A parser that has just been made is at the lexemes of the text. -/
theorem inRange_start {text : String} {strings : StringPool} {p : Parser}
    (h : start text strings = .ok p) (hstrings : strings.limit < addressSpace) : InRange p := by
  have hrange := inRange_lexemes text
  unfold start at h
  split at h
  · obtain rfl := Except.ok.inj h
    exact ⟨rfl, by simp, hstrings⟩
  · cases h
  · rename_i token rest hlexemes
    obtain rfl := Except.ok.inj h
    rw [hlexemes] at hrange
    exact ⟨hrange (.ok token) List.mem_cons_self,
      fun lexeme hmem => hrange lexeme (mem_of_mem_dropLexeme hmem), hstrings⟩

/-! ### Expressions

The rules for operands and for what follows them. -/

/-- A pool that grows keeps its records, so a literal that was in it still is. -/
theorem literalFits_of_grows {pool pool' : StringPool} (h : pool.Grows pool') {e : Expr}
    (he : e.LiteralFits pool) : e.LiteralFits pool' := by
  cases e with
  | string _ text =>
    obtain ⟨offset, hoffset⟩ := Option.isSome_iff_exists.mp he
    exact Option.isSome_iff_exists.mpr ⟨offset, h text offset hoffset⟩
  | integer => exact he
  | _ => trivial

/-- An expression without parts is fit if it is so itself. -/
theorem literalsFit_leaf {pool : StringPool} {e : Expr} (hparts : e.parts = [e])
    (he : e.LiteralFits pool) : e.LiteralsFit pool := by
  intro s hs
  rw [hparts] at hs
  rwa [List.mem_singleton.mp hs]

/-- The literals of an expression stay fit while the pool grows. -/
theorem lasting_literalsFit : Lasting fun pool e => Expr.LiteralsFit pool e :=
  fun _ _ _ hgrows h s hs => literalFits_of_grows hgrows (h s hs)

/-- A number is fit because its token is in range, a string because it has just been interned. -/
theorem literalsFit_operand :
    OperandRules InRange (fun pool e => e.LiteralsFit pool) fun pool e => e.LiteralsFit pool where
  integer {pool p location value} hp hkind := by
    have hrange := hp.current
    rw [hkind] at hrange
    have hmax : value ≤ maxInteger := by simpa [TokenKind.inRange] using hrange
    exact literalsFit_leaf rfl ⟨Int.natCast_nonneg value, Int.ofNat_le.mpr hmax⟩
  truth b := by
    refine literalsFit_leaf rfl ?_
    cases b
    · exact ⟨by decide, by decide⟩
    · exact ⟨by decide, by decide⟩
  float := literalsFit_leaf rfl trivial
  string hsome := literalsFit_leaf rfl hsome
  identifier := literalsFit_leaf rfl trivial
  unary h := List.forall_mem_cons.mpr ⟨trivial, h⟩
  group h := h
  array h := List.forall_mem_cons.mpr ⟨trivial, Expr.forall_mem_partsAll_iff.mpr h⟩
  tuple h := List.forall_mem_cons.mpr ⟨trivial, Expr.forall_mem_partsAll_iff.mpr h⟩

/-- An operator has no literals of its own, so the parts are enough. -/
theorem literalsFit_extension :
    ExtensionRules (fun pool e => e.LiteralsFit pool) (fun pool e => e.LiteralsFit pool)
      fun pool e => e.LiteralsFit pool where
  call h := List.forall_mem_cons.mpr ⟨trivial, Expr.forall_mem_partsAll_iff.mpr h⟩
  index hbase hindex :=
    List.forall_mem_cons.mpr ⟨trivial, List.forall_mem_append.mpr ⟨hbase, hindex⟩⟩
  member h := List.forall_mem_cons.mpr ⟨trivial, h⟩
  binary hleft hright :=
    List.forall_mem_cons.mpr ⟨trivial, List.forall_mem_append.mpr ⟨hleft, hright⟩⟩

/-- Every expression of a parsed program is fit, and its statements are regular. -/
theorem makes_program_literalsFit :
    Makes InRange program fun pool program =>
      (∀ e ∈ program.exprs, e.LiteralsFit pool) ∧ Stmt.AllRegular program.statements := by
  refine makes_program invariant_inRange lasting_literalsFit fun k _ => ?_
  exact makes_expression (P := fun _ _ pool e => Expr.LiteralsFit pool e) invariant_inRange
    (fun _ => lasting_literalsFit) (fun _ _ => lasting_literalsFit) (fun _ => literalsFit_operand)
    (fun _ _ _ => literalsFit_extension) (fun _ _ _ _ _ h => h) k lowest

end Parse

/-! ### Programs

A text that is parsed into a symbol table. -/

/-- An empty pool ends where it begins, which is an address. -/
theorem StringPool.limit_empty_lt (start : Nat) :
    (StringPool.empty start).limit < addressSpace := by
  simp only [StringPool.empty]
  split
  · assumption
  · simp [addressSpace, cellSize]

/-- Parsing into a table changes its string pool and nothing else. -/
theorem SymbolTable.parse_eq_ok_iff {t t' : SymbolTable} {source : String} {program : Program} :
    t.parse source = (.ok program, t') ↔
      ∃ strings, parseProgram source t.strings = (.ok program, strings) ∧
        t' = { t with strings } := by
  unfold SymbolTable.parse
  constructor
  · intro h
    obtain ⟨hresult, rfl⟩ := Prod.mk.inj h
    exact ⟨_, Prod.ext hresult rfl, rfl⟩
  · rintro ⟨strings, h, rfl⟩
    rw [h]

/-- What parsing a text into a table gives: literals that can be used, regular statements, and a
string pool in the address space. Nothing else of the table changes. -/
theorem literalsFit_of_parse {t t' : SymbolTable} {source : String} {program : Program}
    (h : t.parse source = (.ok program, t')) (ht : t.strings.limit < addressSpace) :
    (∀ e ∈ program.exprs, e.LiteralsFit t'.strings) ∧ Stmt.AllRegular program.statements ∧
      t'.strings.limit < addressSpace ∧ t' = { t with strings := t'.strings } := by
  obtain ⟨_, hparse, rfl⟩ := SymbolTable.parse_eq_ok_iff.mp h
  obtain ⟨p, p', hstart, hrun, rfl⟩ := Parse.parseProgram_eq_ok_iff.mp hparse
  obtain ⟨hrange, -, hfits, hregular⟩ :=
    Parse.makes_program_literalsFit p p' _ hrun (Parse.inRange_start hstart ht)
  exact ⟨hfits, hregular, hrange.strings, rfl⟩

end WasmCompiler
