import WasmCompiler.Symbols.StringPool
import WasmCompiler.Token.Lexer
import WasmCompiler.Tree.Basic

/-!
# Parts of syntax trees

The expressions that a tree is made of, and what is said of all of them at once: how high they
are, whether their literals can be used, and how statements are built from them.

* `Expr.height` is the height of an expression; a literal or a name has height one.
* `Expr.parts` lists an expression and everything in it, `Stmt.exprs` the expressions that stand
  in a statement and in the statements inside it.
* `Expr.LiteralFits` says that an integer literal is in range and that a string literal has an
  address; `Stmt.IsRegular` that declarations name something and that what follows an `else` is a
  conditional or a block.
-/

namespace WasmCompiler

/-! ### Height

A chain of operators is as high as the operators in it, and arguments, items and elements stand side
by side. -/

mutual

/-- The height of an expression. -/
def Expr.height : Expr → Nat
  | .integer .. | .float .. | .string .. | .identifier .. => 1
  | .unary _ _ operand => operand.height + 1
  | .binary _ _ left right => max left.height right.height + 1
  | .call _ _ args => Expr.maxHeight args + 1
  | .member _ base _ => base.height + 1
  | .index _ base position => max base.height position.height + 1
  | .array _ items => Expr.maxHeight items + 1
  | .tuple _ items => Expr.maxHeight items + 1

/-- The height of the highest of some expressions. -/
def Expr.maxHeight : List Expr → Nat
  | [] => 0
  | e :: es => max e.height (Expr.maxHeight es)

end

/-- A bound on the highest is one on all. -/
theorem Expr.maxHeight_le_iff {es : List Expr} {n : Nat} :
    Expr.maxHeight es ≤ n ↔ ∀ e ∈ es, e.height ≤ n := by
  induction es with
  | nil => simp [Expr.maxHeight]
  | cons e es ih => rw [Expr.maxHeight, Nat.max_le, ih, List.forall_mem_cons]

/-! ### Expressions in expressions

A property of all parts is asked for where a pass goes through the expression and may stop anywhere
in it. -/

mutual

/-- An expression and all expressions in it. -/
def Expr.parts : Expr → List Expr
  | .integer l v => [.integer l v]
  | .float l v => [.float l v]
  | .string l text => [.string l text]
  | .identifier l name => [.identifier l name]
  | .unary l op operand => .unary l op operand :: operand.parts
  | .binary l op left right => .binary l op left right :: (left.parts ++ right.parts)
  | .call l callee args => .call l callee args :: Expr.partsAll args
  | .member l base name => .member l base name :: base.parts
  | .index l base position => .index l base position :: (base.parts ++ position.parts)
  | .array l items => .array l items :: Expr.partsAll items
  | .tuple l items => .tuple l items :: Expr.partsAll items

/-- The expressions in some expressions. -/
def Expr.partsAll : List Expr → List Expr
  | [] => []
  | e :: es => e.parts ++ Expr.partsAll es

end

theorem Expr.self_mem_parts (e : Expr) : e ∈ e.parts := by
  cases e <;> simp [Expr.parts]

/-- What all parts of some expressions have, the parts of each have. -/
theorem Expr.forall_mem_partsAll_iff {P : Expr → Prop} {es : List Expr} :
    (∀ s ∈ Expr.partsAll es, P s) ↔ ∀ e ∈ es, ∀ s ∈ e.parts, P s := by
  induction es with
  | nil => simp [Expr.partsAll]
  | cons e es ih => rw [Expr.partsAll, List.forall_mem_append, List.forall_mem_cons, ih]

mutual

/-- What is in a part of an expression is in the expression. -/
theorem Expr.parts_trans : (e : Expr) → {s r : Expr} → s ∈ e.parts → r ∈ s.parts → r ∈ e.parts
  | .integer .., s, r, hs, hr | .float .., s, r, hs, hr
  | .string .., s, r, hs, hr | .identifier .., s, r, hs, hr => by
    simp only [Expr.parts, List.mem_singleton] at hs
    rwa [hs] at hr
  | .unary _ _ operand, s, r, hs, hr | .member _ operand _, s, r, hs, hr => by
    simp only [Expr.parts, List.mem_cons] at hs ⊢
    rcases hs with rfl | hs
    · exact List.mem_cons.mp hr
    · exact .inr (Expr.parts_trans operand hs hr)
  | .binary _ _ left right, s, r, hs, hr | .index _ left right, s, r, hs, hr => by
    simp only [Expr.parts, List.mem_cons, List.mem_append] at hs ⊢
    rcases hs with rfl | hs | hs
    · simpa only [Expr.parts, List.mem_cons, List.mem_append] using hr
    · exact .inr (.inl (Expr.parts_trans left hs hr))
    · exact .inr (.inr (Expr.parts_trans right hs hr))
  | .call _ _ items, s, r, hs, hr | .array _ items, s, r, hs, hr
  | .tuple _ items, s, r, hs, hr => by
    simp only [Expr.parts, List.mem_cons] at hs ⊢
    rcases hs with rfl | hs
    · exact List.mem_cons.mp hr
    · exact .inr (Expr.partsAll_trans items hs hr)

theorem Expr.partsAll_trans :
    (es : List Expr) → {s r : Expr} → s ∈ Expr.partsAll es → r ∈ s.parts → r ∈ Expr.partsAll es
  | [], _, _, hs, _ => by simp [Expr.partsAll] at hs
  | e :: es, s, r, hs, hr => by
    simp only [Expr.partsAll, List.mem_append] at hs ⊢
    exact hs.imp (Expr.parts_trans e · hr) (Expr.partsAll_trans es · hr)

end

/-- Whether a literal can be used: an integer is in range, and a string has an address. -/
def Expr.LiteralFits (pool : StringPool) : Expr → Prop
  | .integer _ value => 0 ≤ value ∧ value ≤ maxInteger
  | .string _ text => (pool.offset? text).isSome
  | _ => True

/-- Whether all literals in an expression can be used. -/
def Expr.LiteralsFit (pool : StringPool) (e : Expr) : Prop :=
  ∀ s ∈ e.parts, s.LiteralFits pool

/-- Whether the expression is an array literal whose last item is an array literal without
items. -/
def Expr.endsInEmptyArray : Expr → Bool
  | .array _ items => items.getLast?.any Expr.isEmptyArray
  | _ => false

/-! ### Expressions in statements

The expressions that are parts of these are not listed again. -/

mutual

/-- The expressions that stand in a statement. -/
def Stmt.exprs : Stmt → List Expr
  | .declare _ _ _ value => value.toList
  | .function _ _ body => Stmt.exprsAll body
  | .struct .. => []
  | .ret _ value => value.toList
  | .assign _ target value => [target, value]
  | .conditional _ condition body none => condition :: Stmt.exprsAll body
  | .conditional _ condition body (some alternate) =>
    condition :: (Stmt.exprsAll body ++ alternate.exprs)
  | .whileLoop _ condition body => condition :: Stmt.exprsAll body
  | .print _ value => [value]
  | .expression _ value => [value]
  | .block _ body => Stmt.exprsAll body

/-- The expressions that stand in some statements. -/
def Stmt.exprsAll : List Stmt → List Expr
  | [] => []
  | s :: ss => s.exprs ++ Stmt.exprsAll ss

end

/-- What all expressions of some statements have, the expressions of each have. -/
theorem Stmt.forall_mem_exprsAll_iff {P : Expr → Prop} {ss : List Stmt} :
    (∀ e ∈ Stmt.exprsAll ss, P e) ↔ ∀ s ∈ ss, ∀ e ∈ s.exprs, P e := by
  induction ss with
  | nil => simp [Stmt.exprsAll]
  | cons s ss ih => rw [Stmt.exprsAll, List.forall_mem_append, List.forall_mem_cons, ih]

/-- The expressions of a program. -/
def Program.exprs (program : Program) : List Expr :=
  Stmt.exprsAll program.statements

/-! ### How statements are built

What the parser ensures of every statement and later passes rely on. -/

/-- Whether a statement can follow an `else`. -/
def Stmt.isAlternate : Stmt → Bool
  | .conditional .. | .block .. => true
  | _ => false

mutual

/-- Whether every declaration in a statement names something and every alternate of a conditional
is a conditional or a block. -/
def Stmt.IsRegular : Stmt → Prop
  | .declare _ _ bindings _ => bindings ≠ []
  | .function _ _ body => Stmt.AllRegular body
  | .conditional _ _ body none => Stmt.AllRegular body
  | .conditional _ _ body (some alternate) =>
    Stmt.AllRegular body ∧ alternate.isAlternate ∧ alternate.IsRegular
  | .whileLoop _ _ body => Stmt.AllRegular body
  | .block _ body => Stmt.AllRegular body
  | .struct .. | .ret .. | .assign .. | .print .. | .expression .. => True

/-- Whether all of some statements are regular. -/
def Stmt.AllRegular : List Stmt → Prop
  | [] => True
  | s :: ss => s.IsRegular ∧ Stmt.AllRegular ss

end

/-- Statements are regular together if each is. -/
theorem Stmt.allRegular_iff {ss : List Stmt} :
    Stmt.AllRegular ss ↔ ∀ s ∈ ss, s.IsRegular := by
  induction ss with
  | nil => simp [Stmt.AllRegular]
  | cons s ss ih => simp [Stmt.AllRegular, ih]

end WasmCompiler
