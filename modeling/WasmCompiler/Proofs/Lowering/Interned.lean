import WasmCompiler.Proofs.Lowering.Outcomes
import WasmCompiler.Proofs.Tree.Interning

/-!
# Parsing fixes the string literals

Nothing is interned after parsing, so the string pool that parsing leaves is the one that lowering
finds and that goes into the descriptor. `parse_interns` says what is in it: one record for each
string among the tokens of the text, in the order in which they first occur. Every literal of the
tree is one of them, and so lowering finds it.

The tokens come from `tokenize_of_parseProgram`, and the records from
`StringPool.entries_internAll?`. That the literals of the tree are in the pool is an invariant of
the parser (`literalsFit_of_parse`); that lowering does not miss them is `isRuledOut_of_generate`.
-/

namespace WasmCompiler

open Lowering
open TokenKind (texts)

/-- A text that is parsed with an empty string pool can be read as tokens. Its segments are the
records of the strings among these, without later duplicates; every literal of the tree has its
offset; and lowering never misses one. -/
theorem parse_interns {options : CompileOptions} {source : String} {program : Program}
    {t : SymbolTable} (h : options.symbols.parse source = (.ok program, t)) :
    (∃ tokens, tokenize source = .ok tokens ∧
      t.strings.segments.map (·.bytes) =
        (texts (tokens.map (·.kind))).eraseDups.map stringRecord) ∧
      (∀ e ∈ program.exprs, ∀ location text, Expr.string location text ∈ e.parts →
        (t.stringOffset? text).isSome) ∧
      ∀ error t' text place, generate program t = .error error t' →
        error ≠ .invariant (.unknownString text) place := by
  obtain ⟨hfits, -⟩ := literalsFit_of_parse h (StringPool.limit_empty_lt options.memoryStart)
  refine ⟨?_, fun e he location text hpart => hfits e he _ hpart, ?_⟩
  · obtain ⟨_, hparse, rfl⟩ := SymbolTable.parse_eq_ok_iff.mp h
    obtain ⟨tokens, htokens, hintern⟩ := tokenize_of_parseProgram hparse
    refine ⟨tokens, htokens, ?_⟩
    rw [← StringPool.entries_internAll? hintern, StringPool.segments, List.map_map, List.map_map]
    rfl
  · rintro error t' text place hgenerate rfl
    cases isRuledOut_of_generate (SymbolTable.fresh_of_parse h) (knows_of_parse h) hgenerate

/-- Literals in several forms of statements, some of them twice. -/
def internedSource : String :=
  "func main() \x7b let s = 'b'; print f('a', ['b', 'c'])[0]; print 'a'; \x7d " ++
    "func f(s: string, a: [string]) -> [string] \x7b return a; \x7d"

/-- Five strings are in the text, and three records are in the pool. -/
theorem parse_interns_duplicates : ∃ program t tokens,
    (CompileOptions.symbols {}).parse internedSource = (.ok program, t) ∧
      tokenize internedSource = .ok tokens ∧
      texts (tokens.map (·.kind)) = ["b", "a", "b", "c", "a"] ∧
      t.strings.segments.map (·.bytes) = ["b", "a", "c"].map stringRecord := by
  let t := ((CompileOptions.symbols {}).parse internedSource).2
  have hruns : (((CompileOptions.symbols {}).parse internedSource).1.toOption.any fun _ =>
      (tokenize internedSource).toOption.any fun tokens =>
        decide (texts (tokens.map (·.kind)) = ["b", "a", "b", "c", "a"])) = true := by
    decide +kernel
  obtain ⟨program, hparse, hruns⟩ := Except.exists_of_any hruns
  obtain ⟨tokens, htokens, htexts⟩ := Except.exists_of_any hruns
  have htexts := of_decide_eq_true htexts
  have hparse : (CompileOptions.symbols {}).parse internedSource = (.ok program, t) :=
    Prod.ext hparse rfl
  obtain ⟨tokens', htokens', hsegments⟩ := (parse_interns hparse).1
  obtain rfl := Except.ok.inj (htokens.symm.trans htokens')
  rw [htexts] at hsegments
  exact ⟨program, t, tokens, hparse, htokens, htexts, hsegments⟩

end WasmCompiler
