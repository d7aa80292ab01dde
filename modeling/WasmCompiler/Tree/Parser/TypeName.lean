import WasmCompiler.Tree.Parser.Basic

/-!
# Parsing type annotations

A name, `[T]`, or a tuple `(T, …)`. Parentheses around one annotation without a comma only group.
-/

namespace WasmCompiler.Parse

/-- An annotation of at most `n` levels. Each level takes a token, so the number of lexemes left
is enough for any annotation. -/
def typeNameUpTo : Nat → ParseM TypeName
  | 0 => unexpected .type
  | n + 1 => do
    match (← peek).kind with
    | .identifier name =>
      let _ ← advance
      return .named name
    | .lbracket =>
      let _ ← advance
      let element ← typeNameUpTo n
      let _ ← expect .rbracket
      return .array element
    | .lparen =>
      let _ ← advance
      let first ← typeNameUpTo n
      if ← check .comma then
        let others ← many anotherElement (typeNameUpTo n)
        let _ ← expect .rparen
        return .tuple (first :: others)
      else
        let _ ← expect .rparen
        return first
    | _ => unexpected .type

/-- A type annotation. -/
def typeName : ParseM TypeName := do
  typeNameUpTo (← rounds)

/-- A name, a colon and a type. -/
def field (wanted : Wanted) : ParseM Field := do
  let (name, location) ← expectName wanted
  let _ ← expect .colon
  let type ← typeName
  return ⟨name, type, location⟩

end WasmCompiler.Parse
