import WasmCompiler.Proofs.Lowering.Relocatable
import WasmCompiler.Proofs.Typing.Statements

/-!
# Calls

A site is a place of the source that becomes a call: a call by name, a printed value, or an array
literal, which calls the allocator (`CallSite`). `CallSite.Calls` says which function a site calls
when the numbers of the functions are given, and `CallsAt` that the calls in some code are those of
some sites, in order.

`CallsAt.append` and `CallsAt.append_plain` follow the way in which code is put together, and
`CallsAt.append_call` adds the call of a site behind the code of its arguments.
-/

namespace WasmCompiler

open Wasm (Instr)

/-! ### Calls in code

The numbers of called functions, in the order of the instructions. -/

namespace Wasm.Instr

mutual

/-- The numbers of the functions that an instruction calls, in order. -/
def calls : Instr → List Nat
  | .call index => [index]
  | .block _ body | .loop _ body | .branch _ body none => callsAll body
  | .branch _ body (some alternate) => callsAll body ++ callsAll alternate
  | _ => []

/-- The numbers of the functions that code calls, in order. -/
def callsAll : List Instr → List Nat
  | [] => []
  | i :: is => calls i ++ callsAll is

end

@[simp] theorem callsAll_append (code rest : List Instr) :
    callsAll (code ++ rest) = callsAll code ++ callsAll rest := by
  induction code with
  | nil => rfl
  | cons i is ih => rw [List.cons_append, callsAll, callsAll, ih, List.append_assoc]

theorem callsAll_of_isPlain {code : List Instr} (h : code.all isPlain = true) :
    callsAll code = [] := by
  induction code with
  | nil => rfl
  | cons i is ih =>
    rw [List.all_cons, Bool.and_eq_true] at h
    rw [callsAll, ih h.2, List.append_nil]
    cases i with
    | call | block | loop | branch => cases h.1
    | _ => rfl

end Wasm.Instr

/-! ### Calls in the source

The sites of a tree, in the order of evaluation, and what they call. -/

/-- A place of the source that becomes a call. -/
inductive CallSite where
  | named (callee : String)
  /-- A value that a statement prints, with the table there. -/
  | printed (t : SymbolTable) (value : Expr)
  /-- Where a block of memory is reserved. -/
  | allocation

mutual

/-- The calls of an expression, in the order of their evaluation. -/
def Expr.callSites : Expr → List CallSite
  | .integer .. | .float .. | .string .. | .identifier .. => []
  | .unary _ _ operand => operand.callSites
  | .binary _ _ left right => left.callSites ++ right.callSites
  | .call _ callee args => Expr.callSitesAll args ++ [.named callee]
  | .member _ base _ => base.callSites
  | .index _ base position => base.callSites ++ position.callSites
  | .array _ items => .allocation :: Expr.callSitesAll items
  | .tuple _ items => Expr.callSitesAll items

/-- The calls of some expressions, in order. -/
def Expr.callSitesAll : List Expr → List CallSite
  | [] => []
  | e :: es => e.callSites ++ Expr.callSitesAll es

end

open SymbolTable (inScope) in
mutual

/-- The calls of a statement of a function that gives `result`, in order. -/
def Stmt.callSites (result : DataType) : Stmt → SymbolTable → List CallSite
  | .declare _ _ _ value, _ | .ret _ value, _ => value.toList.flatMap Expr.callSites
  | .assign _ target value, _ => target.callSites ++ value.callSites
  | .conditional _ condition body none, t | .whileLoop _ condition body, t =>
    condition.callSites ++ Stmt.callSitesAll result body t.enterScope
  | .conditional _ condition body (some alternate), t =>
    condition.callSites ++ Stmt.callSitesAll result body t.enterScope ++
      alternate.callSites result (tableAfter (inScope (checkStmts result body) t))
  | .print _ value, t => value.callSites ++ [.printed t value]
  | .expression _ value, _ => value.callSites
  | .block _ body, t => Stmt.callSitesAll result body t.enterScope
  | .function .., _ | .struct .., _ => []

/-- The calls of statements, in order. -/
def Stmt.callSitesAll (result : DataType) : List Stmt → SymbolTable → List CallSite
  | [], _ => []
  | s :: ss, t =>
    s.callSites result t ++ Stmt.callSitesAll result ss (tableAfter (checkStmt result s t))

end

/-- The calls of a declaration whose names are in a table. A struct stands for its constructor,
which reserves a block. -/
def Stmt.callSitesTopLevel (g : SymbolTable) : Stmt → List CallSite
  | .function _ header body =>
    match g.function? header.name with
    | some signature =>
      Stmt.callSitesAll signature.result body
        (tableAfter (checkParams (header.params.zip signature.params) g.enterFunction))
    | none => []
  | .struct .. => [.allocation]
  | _ => []

/-- Lowering finds a type for an expression. -/
def Expr.LowersTo (t : SymbolTable) (e : Expr) (type : DataType) : Prop :=
  ∃ c s l s', c.symbols = t ∧ Lowering.lowerExpr c e s = .ok (l, s') ∧ l.type = type

/-- The function that a site calls, given the numbers of the declared names and that of the
allocator. A value is printed by the function of the host for its type. -/
inductive CallSite.Calls (Numbers : String → Nat → Prop) (allocator : Nat) : CallSite → Nat → Prop
  | print : Calls Numbers allocator (.named printName) printIndex
  | printString : Calls Numbers allocator (.named printStringName) printStringIndex
  | declared {name : String} {k : Nat} (h : Numbers name k) :
    Calls Numbers allocator (.named name) k
  | printed {t : SymbolTable} {value : Expr} {type : DataType} (h : value.LowersTo t type) :
    Calls Numbers allocator (.printed t value)
      (if type = .string then printStringIndex else printIndex)
  | allocation : Calls Numbers allocator .allocation allocator

/-- A site calls the same function if its name still has the same number. -/
theorem CallSite.Calls.mono {Numbers Numbers' : String → Nat → Prop} {allocator k : Nat}
    {site : CallSite} (h : site.Calls Numbers allocator k)
    (hnumbers : ∀ name k, Numbers name k → Numbers' name k) : site.Calls Numbers' allocator k := by
  cases h with
  | print => exact .print
  | printString => exact .printString
  | declared h => exact .declared (hnumbers _ _ h)
  | printed h => exact .printed h
  | allocation => exact .allocation

/-- The calls in some code are those of some sites, in order. -/
def CallsAt (indices : List (String × Nat)) (allocator : Nat) (sites : List CallSite)
    (code : List Instr) : Prop :=
  List.Forall₂ (CallSite.Calls (fun name k => indices.lookup name = some k) allocator) sites
    (Instr.callsAll code)

section CallsAt

variable {indices : List (String × Nat)} {allocator : Nat} {sites sites' : List CallSite}
  {code rest : List Instr}

theorem callsAt_plain (h : code.all Instr.isPlain = true) : CallsAt indices allocator [] code := by
  rw [CallsAt, Instr.callsAll_of_isPlain h]
  exact .nil

/-- Sites and calls are put together in the same order. -/
theorem CallsAt.append (h : CallsAt indices allocator sites code)
    (h' : CallsAt indices allocator sites' rest) :
    CallsAt indices allocator (sites ++ sites') (code ++ rest) := by
  rw [CallsAt, Instr.callsAll_append]
  exact List.rel_append h h'

/-- Only the calls in the code matter. -/
theorem CallsAt.of_eq (h : CallsAt indices allocator sites code)
    (heq : Instr.callsAll rest = Instr.callsAll code) : CallsAt indices allocator sites rest := by
  rwa [CallsAt, heq]

/-- Plain code behind the calls changes nothing. -/
theorem CallsAt.append_plain (h : CallsAt indices allocator sites code)
    (hrest : rest.all Instr.isPlain = true) : CallsAt indices allocator sites (code ++ rest) :=
  h.of_eq (by rw [Instr.callsAll_append, Instr.callsAll_of_isPlain hrest, List.append_nil])

/-- A site comes after those of its arguments. -/
theorem CallsAt.append_call {site : CallSite} {k : Nat} (h : CallsAt indices allocator sites code)
    (hk : site.Calls (fun name k => indices.lookup name = some k) allocator k) :
    CallsAt indices allocator (sites ++ [site]) (code ++ [.call k]) :=
  h.append (List.Forall₂.cons hk .nil)

end CallsAt

end WasmCompiler
