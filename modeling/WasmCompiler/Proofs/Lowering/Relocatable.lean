import WasmCompiler.Lowering.Program
import WasmCompiler.Proofs.Effects
import WasmCompiler.Proofs.Tree.Parts
import WasmCompiler.Proofs.Typing.Alike

/-!
# Relocatable code

Code refers to functions by number and to string literals by address. Relocatable code has names
and texts in their places, and `Relocatable.link` puts the numbers and addresses in.

What lowering an expression gives is linked relocatable code: if it succeeds in a context then there
is relocatable code that gives the result in this context and in every other one with a table that
looks alike (`Links`). So the numbers of functions and the addresses of literals have no other
effect on the code, and the literals in it are those of the expression, in order.

* `Links` is what a step of the lowering satisfies, with `Links.bind`, `links_same` and
  `links_still` as its rules;
* `LinksExpr` is the same for expressions, and `links_lowerExpr` the induction over them.
-/

namespace WasmCompiler

open Wasm (Instr ValueType)
open SymbolTable (Alike)

/-! ### Literals of a tree

The texts in the order in which they are written. -/

/-- The text of a string literal. -/
def Expr.text? : Expr → Option String
  | .string _ text => some text
  | _ => none

/-- The string literals in an expression, in order. -/
def Expr.texts (e : Expr) : List String :=
  e.parts.filterMap Expr.text?

/-- The string literals in some expressions, in order. -/
def Expr.textsAll (es : List Expr) : List String :=
  (Expr.partsAll es).filterMap Expr.text?

/-- The string literals in some statements, in order. -/
def Stmt.textsAll (stmts : List Stmt) : List String :=
  (Stmt.exprsAll stmts).flatMap Expr.texts

/-- The string literals in a statement, in order. -/
def Stmt.texts (stmt : Stmt) : List String :=
  stmt.exprs.flatMap Expr.texts

section Texts

variable {location : Location} {e left right : Expr} {es : List Expr}

theorem Expr.texts_binary {op : BinaryOp} :
    (Expr.binary location op left right).texts = left.texts ++ right.texts := by
  rw [Expr.texts, Expr.parts, List.filterMap_cons_none rfl, List.filterMap_append]
  rfl

theorem Expr.texts_index :
    (Expr.index location left right).texts = left.texts ++ right.texts := by
  rw [Expr.texts, Expr.parts, List.filterMap_cons_none rfl, List.filterMap_append]
  rfl

theorem Expr.textsAll_cons : Expr.textsAll (e :: es) = e.texts ++ Expr.textsAll es := by
  simp [Expr.textsAll, Expr.texts, Expr.partsAll]

theorem Stmt.textsAll_cons {stmt : Stmt} {stmts : List Stmt} :
    Stmt.textsAll (stmt :: stmts) = stmt.texts ++ Stmt.textsAll stmts := by
  simp [Stmt.textsAll, Stmt.texts, Stmt.exprsAll]

end Texts

/-! ### Instructions

Instructions with names and texts, and what makes instructions of them. -/

namespace Wasm

/-- Whether an instruction calls no function and holds no other instructions. -/
def Instr.isPlain : Instr → Bool
  | .block .. | .loop .. | .branch .. | .call _ => false
  | _ => true

/-- An instruction that names functions and string literals. -/
inductive Relocatable where
  | plain (instr : Instr) (h : instr.isPlain = true)
  /-- Pushes the address of a string literal. -/
  | address (text : String)
  | call (callee : String)
  /-- Calls the allocator. -/
  | allocate
  | block (result : Option ValueType) (body : List Relocatable)
  | loop (result : Option ValueType) (body : List Relocatable)
  | branch (result : Option ValueType) (body : List Relocatable)
    (alternate : Option (List Relocatable))

/-- The numbers of functions and the addresses of string literals. -/
structure Linking where
  callee : String → Nat
  allocator : Nat
  address : String → Nat

namespace Relocatable

mutual

/-- The instruction with numbers and addresses. -/
def link (l : Linking) : Relocatable → Instr
  | .plain instr _ => instr
  | .address text => .i32Const (.ofNat (l.address text))
  | .call callee => .call (l.callee callee)
  | .allocate => .call l.allocator
  | .block result body => .block result (linkAll l body)
  | .loop result body => .loop result (linkAll l body)
  | .branch result body none => .branch result (linkAll l body) none
  | .branch result body (some alternate) =>
    .branch result (linkAll l body) (some (linkAll l alternate))

/-- Code with numbers and addresses. -/
def linkAll (l : Linking) : List Relocatable → List Instr
  | [] => []
  | i :: is => link l i :: linkAll l is

end

mutual

/-- The string literals in an instruction, in order. -/
def texts : Relocatable → List String
  | .address text => [text]
  | .block _ body | .loop _ body | .branch _ body none => textsAll body
  | .branch _ body (some alternate) => textsAll body ++ textsAll alternate
  | .plain .. | .call _ | .allocate => []

/-- The string literals in code, in order. -/
def textsAll : List Relocatable → List String
  | [] => []
  | i :: is => texts i ++ textsAll is

end

variable {l : Linking} {code rest : List Relocatable}

@[simp] theorem linkAll_nil : linkAll l [] = [] := by
  rw [linkAll]

@[simp] theorem linkAll_append : linkAll l (code ++ rest) = linkAll l code ++ linkAll l rest := by
  induction code with
  | nil => simp
  | cons i is ih => rw [List.cons_append, linkAll, linkAll, ih, List.cons_append]

@[simp] theorem textsAll_nil : textsAll [] = [] := by
  rw [textsAll]

@[simp] theorem textsAll_append : textsAll (code ++ rest) = textsAll code ++ textsAll rest := by
  induction code with
  | nil => simp
  | cons i is ih => rw [List.cons_append, textsAll, textsAll, ih, List.append_assoc]

/-- Plain code, which needs no linking. -/
def ofPlain (code : List Instr)
    (h : code.all Instr.isPlain = true := by
      simp [Instr.isPlain, Lowering.elementCode, Lowering.loadCell, Lowering.storeCell]) :
    List Relocatable :=
  match code, h with
  | [], _ => []
  | i :: is, h => .plain i (Bool.and_eq_true_iff.mp h).1 :: ofPlain is (Bool.and_eq_true_iff.mp h).2

@[simp] theorem linkAll_ofPlain {code : List Instr} (h : code.all Instr.isPlain = true) :
    linkAll l (ofPlain code h) = code := by
  induction code with
  | nil => simp [ofPlain]
  | cons i is ih => rw [ofPlain, linkAll, link, ih]

@[simp] theorem textsAll_ofPlain {code : List Instr} (h : code.all Instr.isPlain = true) :
    textsAll (ofPlain code h) = [] := by
  induction code with
  | nil => simp [ofPlain]
  | cons i is ih => rw [ofPlain, textsAll, texts, ih, List.nil_append]

end Relocatable

end Wasm

open Wasm (Linking Relocatable)
open Wasm.Relocatable (linkAll ofPlain)

/-! ### Linking in a context

The numbers and addresses that a context stands for. -/

/-- The numbers and addresses that lowering puts into code. -/
def Lowering.linking (indices : List (String × Nat)) (allocator : Nat) (strings : StringPool) :
    Linking where
  callee name :=
    if name = printName then printIndex
    else if name = printStringName then printStringIndex
    else (indices.lookup name).getD 0
  allocator := allocator
  address text := (strings.offset? text).getD 0

namespace LoweringContext

/-- The numbers and addresses of a context. -/
abbrev linking (c : LoweringContext) : Linking :=
  Lowering.linking c.indices c.allocator c.symbols.strings

/-- A context that differs in numbers and addresses only. -/
structure Variant (c₀ c : LoweringContext) : Prop where
  symbols : Alike c₀.symbols c.symbols
  scratchBase : c.scratchBase = c₀.scratchBase

theorem Variant.refl (c : LoweringContext) : Variant c c :=
  ⟨.refl c.symbols, rfl⟩

end LoweringContext

open LoweringContext (Variant)

namespace Lowering

/-! ### Steps of lowering an expression

What a step gives in all contexts that look alike. -/

section Links

variable {α β τ υ : Type} {c₀ : LoweringContext} {link : Linking → τ → α} {P : τ → Prop}
  {link' : Linking → υ → β} {Q : υ → Prop}

/-- If a step succeeds in the context `c₀` then something relocatable gives its result, in this
context and in every variant of it. -/
def Links (c₀ : LoweringContext) (link : Linking → τ → α) (P : τ → Prop)
    (x : LoweringContext → ScratchM α) : Prop :=
  ∀ s a₀ s', x c₀ s = .ok (a₀, s') →
    ∃ r, P r ∧ ∀ c, Variant c₀ c → ∀ a s₁, x c s = .ok (a, s₁) → a = link c.linking r ∧ s₁ = s'

/-- What depends on the numbers and addresses through linking only. -/
theorem links_pure {a : LoweringContext → α} (r : τ) (hr : P r)
    (h : ∀ c, Variant c₀ c → a c = link c.linking r) : Links c₀ link P fun c => pure (a c) := by
  intro s a₀ s' h₀
  obtain ⟨-, rfl⟩ := Prod.mk.inj (Except.ok.inj h₀)
  refine ⟨r, hr, fun c hc b s₁ hb => ?_⟩
  obtain ⟨rfl, rfl⟩ := Prod.mk.inj (Except.ok.inj hb)
  exact ⟨h c hc, rfl⟩

theorem links_violated {what : Invariant} {location : Location} :
    Links c₀ link P fun _ => violated what location := by
  intro s a₀ s' h₀
  cases h₀

/-- The second step is given what the first one links to. -/
theorem Links.bind {x : LoweringContext → ScratchM α} {k : LoweringContext → α → ScratchM β}
    (hx : Links c₀ link P x) (hk : ∀ r, P r → Links c₀ link' Q fun c => k c (link c.linking r)) :
    Links c₀ link' Q fun c => x c >>= k c := by
  intro s b₀ s'' h₀
  obtain ⟨a₀, s', ha₀, hb₀⟩ := ScratchM.bind_eq_ok_iff.mp h₀
  obtain ⟨r, hr, hall⟩ := hx s a₀ s' ha₀
  obtain ⟨rfl, -⟩ := hall c₀ (.refl c₀) a₀ s' ha₀
  obtain ⟨r', hr', hall'⟩ := hk r hr s' b₀ s'' hb₀
  refine ⟨r', hr', fun c hc b s₂ h => ?_⟩
  obtain ⟨a, s₁, ha, hb⟩ := ScratchM.bind_eq_ok_iff.mp h
  obtain ⟨rfl, rfl⟩ := hall c hc a s₁ ha
  exact hall' c hc b s₂ hb

/-- What is the same in all variants needs no linking. -/
theorem links_same {x : LoweringContext → ScratchM α} {P : α → Prop}
    (hx : ∀ c, Variant c₀ c → x c = x c₀) (hP : ∀ s a s', x c₀ s = .ok (a, s') → P a) :
    Links c₀ (fun _ a => a) P x := by
  intro s a₀ s' h₀
  refine ⟨a₀, hP s a₀ s' h₀, fun c hc a s₁ h => ?_⟩
  rw [hx c hc, h₀] at h
  obtain ⟨rfl, rfl⟩ := Prod.mk.inj (Except.ok.inj h)
  exact ⟨rfl, rfl⟩

/-- A step that hands nothing out and gives the same linked thing wherever it succeeds. -/
theorem links_still {x : LoweringContext → ScratchM α} (r : τ) (hr : P r)
    (hx : ∀ c s a s', Variant c₀ c → x c s = .ok (a, s') → a = link c.linking r ∧ s' = s) :
    Links c₀ link P x := by
  intro s a₀ s' h₀
  obtain ⟨-, rfl⟩ := hx c₀ s a₀ s' (.refl c₀) h₀
  exact ⟨r, hr, fun c hc a s₁ h => hx c s' a s₁ hc h⟩

end Links

/-! ### Plain code

Code that no linking changes. -/

section Plain

theorem isPlain_map {f : Nat → Instr} (hf : ∀ n, (f n).isPlain = true) (ns : List Nat) :
    (ns.map f).all Instr.isPlain = true := by
  rw [List.all_map]
  exact List.all_eq_true.mpr fun n _ => hf n

theorem isPlain_getSlots (slot width : Nat) : (getSlots slot width).all Instr.isPlain = true :=
  isPlain_map (fun _ => rfl) _

theorem isPlain_setSlots (slot width : Nat) : (setSlots slot width).all Instr.isPlain = true :=
  isPlain_map (fun _ => rfl) _

theorem isPlain_negateCode (type : DataType) :
    (negateCode type).all Instr.isPlain = true := by
  unfold negateCode
  split <;> rfl

theorem isPlain_operatorInstr? (op : BinaryOp) (float : Bool) :
    (operatorInstr? op float).toList.all Instr.isPlain = true := by
  cases op <;> cases float <;> rfl

theorem isPlain_spillTuple {c : LoweringContext} {elements : List DataType} {i : Nat}
    {s s' : List ValueType} {code : List Instr}
    (h : spillTuple c elements i s = .ok (code, s')) : code.all Instr.isPlain = true := by
  obtain ⟨temps, s₁, -, hcode⟩ := ScratchM.bind_eq_ok_iff.mp h
  obtain ⟨rfl, -⟩ := Prod.mk.inj (Except.ok.inj hcode)
  rw [List.all_append, isPlain_map (fun _ => rfl), isPlain_map (fun _ => rfl)]
  rfl

end Plain

/-! ### Expressions

Steps first, and then one lemma for each form that takes some work. -/

section Expr

variable {c₀ : LoweringContext}

/-- The code and the type of an expression. -/
abbrev linkLowered (l : Linking) (r : List Relocatable × DataType) : Lowered :=
  ⟨linkAll l r.1, r.2⟩

/-- The number of a function is the one that linking puts in. -/
theorem calleeIndex_eq_ok {c : LoweringContext} {location : Location} {callee : String}
    {s s' : List ValueType} {index : Nat}
    (h : calleeIndex c location callee s = .ok (index, s')) :
    index = c.linking.callee callee ∧ s' = s := by
  simp only [linking]
  rw [calleeIndex] at h
  by_cases hprint : callee = printName
  · rw [if_pos hprint] at h ⊢
    obtain ⟨rfl, rfl⟩ := Prod.mk.inj (Except.ok.inj h)
    exact ⟨rfl, rfl⟩
  · rw [if_neg hprint] at h ⊢
    by_cases hstring : callee = printStringName
    · rw [if_pos hstring] at h ⊢
      obtain ⟨rfl, rfl⟩ := Prod.mk.inj (Except.ok.inj h)
      exact ⟨rfl, rfl⟩
    · rw [if_neg hstring] at h ⊢
      cases hindex : c.indices.lookup callee with
      | none =>
        rw [hindex] at h
        cases h
      | some index' =>
        rw [hindex] at h
        obtain ⟨rfl, rfl⟩ := Prod.mk.inj (Except.ok.inj h)
        exact ⟨rfl, rfl⟩

/-- The number of a function is relocated by the name of the function. -/
theorem links_calleeIndex (location : Location) (callee : String) :
    Links c₀ (fun l name => l.callee name) (fun name => name = callee)
      fun c => calleeIndex c location callee :=
  links_still callee rfl fun _ _ _ _ _ h => calleeIndex_eq_ok h

/-- The type of a call depends on the signature only. -/
theorem links_callResult (location : Location) (callee : String) :
    Links c₀ (fun _ type => type) (fun _ => True) fun c => callResult c location callee :=
  links_same (fun c hc => by simp only [callResult, hc.symbols.callable?]) fun _ _ _ _ => trivial

/-- A tuple is indexed with a literal, in which there is no string. -/
theorem texts_of_elementPosition {elements : List DataType} {index : Expr} {s s' : List ValueType}
    {i : Nat} (h : elementPosition elements index s = .ok (i, s')) : index.texts = [] := by
  unfold elementPosition Expr.elementIndex? at h
  cases index with
  | integer => rfl
  | _ => cases h

/-- A tuple variable is a name, in which there is no string. -/
theorem texts_of_tupleVariable? {c : LoweringContext} {base : Expr} {s s' : List ValueType}
    {found : Variable × List DataType} (h : tupleVariable? c base s = .ok (some found, s')) :
    base.texts = [] := by
  cases base with
  | identifier => rfl
  | _ => cases h

/-- The variable is the same in tables that look alike. -/
theorem links_tupleVariable? (base : Expr) :
    Links c₀ (fun _ found => found) (fun found => found.isSome → base.texts = [])
      fun c => tupleVariable? c base := by
  refine links_same (fun c hc => ?_) fun s found s' h hsome => ?_
  · cases base with
    | identifier location name => simp only [tupleVariable?, hc.symbols.lookupVariable?]
    | _ => rfl
  · obtain ⟨pair, rfl⟩ := Option.isSome_iff_exists.mp hsome
    exact texts_of_tupleVariable? h

/-- Scratch locals are numbered from where the slots end, whatever the functions are. -/
theorem allocScratches_congr {c c' : LoweringContext} (h : c'.scratchBase = c.scratchBase)
    (types : List ValueType) : allocScratches c' types = allocScratches c types := by
  have halloc : allocScratch c' = allocScratch c := by
    funext type scratch
    rw [allocScratch, allocScratch, h]
  induction types with
  | nil => rfl
  | cons type types ih => simp only [allocScratches, halloc, ih]

/-- A tuple is spilled by the same code in every variant. -/
theorem links_spillTuple (elements : List DataType) (i : Nat) :
    Links c₀ (fun _ code => code) (fun code => code.all Instr.isPlain = true)
      fun c => spillTuple c elements i := by
  refine links_same (fun c hc => ?_) fun _ _ _ h => isPlain_spillTuple h
  simp only [spillTuple, allocScratches_congr hc.scratchBase]

/-- A step that does not depend on the context. -/
theorem links_const {α : Type} (x : ScratchM α) :
    Links c₀ (fun _ a => a) (fun _ => True) fun _ => x :=
  links_same (fun _ _ => rfl) fun _ _ _ _ => trivial

/-- The position of an element is told by the types and the literal. -/
theorem links_elementPosition (elements : List DataType) (index : Expr) :
    Links c₀ (fun _ i => i) (fun _ => index.texts = []) fun _ => elementPosition elements index :=
  links_same (fun _ _ => rfl) fun _ _ _ h => texts_of_elementPosition h

theorem links_allocScratch {type : ValueType} :
    Links c₀ (fun _ i => i) (fun _ => True) fun c => allocScratch c type := by
  refine links_same (fun c hc => ?_) fun _ _ _ _ => trivial
  funext scratch
  rw [allocScratch, allocScratch, hc.scratchBase]

/-- What reserves a block for an array. -/
def arrayHeaderCode (base count : Nat) : List Relocatable :=
  ofPlain [.i32Const (.ofNat (cellSize * (count + 1)))] ++
    .allocate :: ofPlain [.localTee base, .i32Const (.ofNat count), .store .i32 0]

/-- The number of the allocator is put in. -/
theorem linkAll_arrayHeaderCode {c : LoweringContext} (base count : Nat) :
    linkAll c.linking (arrayHeaderCode base count) = arrayHeader c base count := by
  simp [arrayHeaderCode, arrayHeader, linkAll, Relocatable.link, linking]

theorem textsAll_arrayHeaderCode (base count : Nat) :
    Relocatable.textsAll (arrayHeaderCode base count) = [] := by
  simp [arrayHeaderCode, Relocatable.textsAll, Relocatable.texts]

/-- The code of an expression is relocatable, and its literals are those of the expression. -/
abbrev LinksExpr (c₀ : LoweringContext) (e : Expr) : Prop :=
  Links c₀ linkLowered (fun r => Relocatable.textsAll r.1 = e.texts) fun c => lowerExpr c e

/-- Code with plain code behind it has the same literals. -/
theorem texts_append_plain {code : List Relocatable} {tail : List Instr} {texts : List String}
    (h : Relocatable.textsAll code = texts) (htail : tail.all Instr.isPlain = true) :
    Relocatable.textsAll (code ++ ofPlain tail htail) = texts := by
  rw [Relocatable.textsAll_append, h, Relocatable.textsAll_ofPlain, List.append_nil]

/-- The operand of an operator, with its conversion. -/
def convertedCode (float : Bool) (r : List Relocatable × DataType) : List Relocatable :=
  if float && !r.2.isFloat then r.1 ++ ofPlain [.f32ConvertI32S] else r.1

theorem linkAll_convertedCode {l : Linking} (float : Bool) (r : List Relocatable × DataType) :
    linkAll l (convertedCode float r) = converted float (linkLowered l r) := by
  unfold convertedCode converted
  split <;> simp

theorem textsAll_convertedCode (float : Bool) (r : List Relocatable × DataType) :
    Relocatable.textsAll (convertedCode float r) = Relocatable.textsAll r.1 := by
  unfold convertedCode
  split <;> simp

/-- The operands are linked one after the other, and the operator is plain. -/
theorem links_operator {location : Location} {op : BinaryOp} {left right : Expr}
    (hleft : LinksExpr c₀ left) (hright : LinksExpr c₀ right) :
    Links c₀ linkLowered
      (fun r => Relocatable.textsAll r.1 = (Expr.binary location op left right).texts)
      (fun c => do
        let l ← lowerExpr c left
        let r ← lowerExpr c right
        match op.result? l.type r.type with
        | some type => return ⟨arithmeticCode op l r, type⟩
        | none => violated (.uncheckedOperands l.type r.type) left.location) := by
  apply hleft.bind
  intro l hl
  apply hright.bind
  intro r hr
  dsimp only
  cases op.result? l.2 r.2 with
  | none => exact links_violated
  | some type =>
    -- if one operand is a float then the other is converted
    let float := l.2.isFloat || r.2.isFloat
    refine links_pure (convertedCode float l ++ convertedCode float r ++
      ofPlain (operatorInstr? op float).toList (isPlain_operatorInstr? op float), type) ?_ ?_
    · apply texts_append_plain
      rw [Relocatable.textsAll_append, textsAll_convertedCode, textsAll_convertedCode, hl, hr,
        Expr.texts_binary]
    · intro c _
      simp [linkAll_convertedCode, arithmeticCode, float]

/-- The two operands of a logical operator, with a branch put around the second. -/
theorem links_logical {location : Location} {op : BinaryOp} {left right : Expr}
    (hleft : LinksExpr c₀ left) (hright : LinksExpr c₀ right)
    (code : List Relocatable → List Relocatable → List Relocatable)
    {linked : List Instr → List Instr → List Instr}
    (hcode : ∀ link l r, linkAll link (code l r) = linked (linkAll link l) (linkAll link r))
    (htexts : ∀ l r, Relocatable.textsAll (code l r) =
      Relocatable.textsAll l ++ Relocatable.textsAll r) :
    Links c₀ linkLowered
      (fun r => Relocatable.textsAll r.1 = (Expr.binary location op left right).texts)
      (fun c => do
        let l ← lowerExpr c left
        let r ← lowerExpr c right
        return ⟨linked l.code r.code, .i32⟩) := by
  apply hleft.bind
  intro l hl
  apply hright.bind
  intro r hr
  refine links_pure (code l.1 r.1, .i32) ?_ fun c _ => ?_
  · rw [htexts, hl, hr, Expr.texts_binary]
  · simp only [linkLowered, hcode]

/-- A literal becomes its address, which linking puts in. -/
theorem links_string (location : Location) (text : String) :
    LinksExpr c₀ (.string location text) := by
  simp only [LinksExpr, lowerExpr]
  refine links_still ([.address text], .string) rfl fun c s l s' hc h => ?_
  cases hoffset : c.symbols.stringOffset? text with
  | none =>
    simp only [hoffset] at h
    cases h
  | some offset =>
    simp only [hoffset] at h
    obtain ⟨rfl, rfl⟩ := Prod.mk.inj (Except.ok.inj h)
    have haddress : c.linking.address text = offset := congrArg (·.getD 0) hoffset
    simp [linkAll, Relocatable.link, haddress]

/-- Contexts that look alike have the same variable, so its slots are plain code. -/
theorem links_identifier (location : Location) (name : String) :
    LinksExpr c₀ (.identifier location name) := by
  simp only [LinksExpr, lowerExpr]
  cases hvar : c₀.symbols.lookupVariable? name with
  | none =>
    intro s l₀ s' h₀
    simp only [hvar] at h₀
    cases h₀
  | some var =>
    have hplain := isPlain_getSlots var.slot var.type.width
    refine links_still (ofPlain _ hplain, var.type) (by simp; rfl) fun c s l s' hc h => ?_
    simp only [hc.symbols.lookupVariable?, hvar] at h
    obtain ⟨rfl, rfl⟩ := Prod.mk.inj (Except.ok.inj h)
    simp

/-- For a tuple variable its slots, otherwise the base, the index and a load. -/
theorem links_index {location : Location} {base index : Expr} (hbase : LinksExpr c₀ base)
    (hindex : LinksExpr c₀ index) : LinksExpr c₀ (.index location base index) := by
  simp only [LinksExpr, lowerExpr]
  apply (links_tupleVariable? base).bind
  -- the slots of a tuple in a variable are read directly, and the base has no code then
  rintro (_ | ⟨var, elements⟩) hvariable
  · apply hbase.bind
    rintro ⟨code, type⟩ hcode
    cases type with
    | array element =>
      apply hindex.bind
      intro r hr
      refine links_pure (code ++ r.1 ++ ofPlain (elementCode element), element) ?_ ?_
      · apply texts_append_plain
        rw [Relocatable.textsAll_append, hcode, hr, Expr.texts_index]
      · simp
    | tuple elements =>
      apply (links_elementPosition elements index).bind
      intro i hposition
      apply (links_spillTuple elements i).bind
      intro spill hspill
      refine links_pure (code ++ ofPlain spill hspill, elementType elements i) ?_ fun c _ => ?_
      · apply texts_append_plain
        rw [hcode, Expr.texts_index, hposition, List.append_nil]
      · simp
    | _ => exact links_violated
  · apply (links_elementPosition elements index).bind
    intro i hposition
    have htexts : (Expr.index location base index).texts = [] := by
      rw [Expr.texts_index, hvariable rfl, hposition, List.append_nil]
    have hplain := isPlain_getSlots (var.slot + elementStart elements i)
      (elementType elements i).width
    refine links_pure (ofPlain _ hplain, elementType elements i) ?_ fun c _ => ?_
    · rw [Relocatable.textsAll_ofPlain, htexts]
    · simp

mutual

/-- By induction over the expression. -/
theorem links_lowerExpr (c₀ : LoweringContext) : (e : Expr) → LinksExpr c₀ e
  | .integer location value => by
    simp only [LinksExpr, lowerExpr]
    apply (links_const (integerWord location value)).bind
    intro word _
    exact links_pure (ofPlain [.i32Const word], .i32) (by simp; rfl) fun c _ => by simp
  | .float location value => by
    simp only [LinksExpr, lowerExpr]
    exact links_pure (ofPlain [.f32Const (.ofDouble value)], .f64) (by simp; rfl)
      fun c _ => by simp
  | .string location text => links_string location text
  | .identifier location name => links_identifier location name
  | .unary location .not _ => by
    simp only [LinksExpr, lowerExpr]
    exact links_violated
  | .unary location .negate operand => by
    simp only [LinksExpr, lowerExpr]
    apply (links_lowerExpr c₀ operand).bind
    intro r hr
    refine links_pure (r.1 ++ ofPlain (negateCode r.2) (isPlain_negateCode r.2), r.2) ?_ ?_
    · exact texts_append_plain hr _
    · simp
  | .binary location .and left right => by
    simp only [LinksExpr, lowerExpr]
    refine links_logical (links_lowerExpr c₀ left) (links_lowerExpr c₀ right)
      (fun l r => l ++ [.branch (some .i32) (r ++ ofPlain [.i32Const 0, .i32Op .ne])
        (some (ofPlain [.i32Const 0]))]) ?_ ?_
    · simp [andCode, normalized, linkAll, Relocatable.link]
    · simp [Relocatable.textsAll, Relocatable.texts]
  | .binary location .or left right => by
    simp only [LinksExpr, lowerExpr]
    refine links_logical (links_lowerExpr c₀ left) (links_lowerExpr c₀ right)
      (fun l r => l ++ [.branch (some .i32) (ofPlain [.i32Const 1])
        (some (r ++ ofPlain [.i32Const 0, .i32Op .ne]))]) ?_ ?_
    · simp [orCode, normalized, linkAll, Relocatable.link]
    · simp [Relocatable.textsAll, Relocatable.texts]
  | .binary location .add left right | .binary location .sub left right
  | .binary location .mul left right | .binary location .div left right
  | .binary location .eq left right | .binary location .ne left right
  | .binary location .lt left right | .binary location .gt left right
  | .binary location .le left right | .binary location .ge left right => by
    simp only [LinksExpr, lowerExpr]
    exact links_operator (links_lowerExpr c₀ left) (links_lowerExpr c₀ right)
  | .call location callee args => by
    simp only [LinksExpr, lowerExpr]
    apply (links_lowerArgs c₀ args).bind
    intro code hcode
    apply (links_calleeIndex location callee).bind
    rintro callee rfl
    apply (links_callResult location callee).bind
    intro type _
    -- the callee stays a name until it is linked
    refine links_pure (code ++ [.call callee], type) ?_ fun c _ => ?_
    · simp [Relocatable.textsAll, Relocatable.texts, hcode]
      rfl
    · simp [linkAll, Relocatable.link]
  | .member location base name => by
    simp only [LinksExpr, lowerExpr]
    apply (links_lowerExpr c₀ base).bind
    intro r hr
    apply (links_const (fieldOf r.2 name base.location)).bind
    rintro ⟨i, type⟩ _
    refine links_pure (r.1 ++ ofPlain [loadCell type i], type) ?_ fun c _ => ?_
    · exact texts_append_plain hr _
    · simp
  | .index location base index =>
    links_index (links_lowerExpr c₀ base) (links_lowerExpr c₀ index)
  | .array location items => by
    simp only [LinksExpr, lowerExpr]
    apply links_allocScratch.bind
    intro base _
    apply (links_lowerItems c₀ base 1 .i32 items).bind
    rintro ⟨code, element⟩ hcode
    -- the address of the block is in a scratch local, so nothing of it is to be linked
    refine links_pure (arrayHeaderCode base items.length ++ code ++ ofPlain [.localGet base],
      .array element) ?_ fun c _ => ?_
    · apply texts_append_plain
      rw [Relocatable.textsAll_append, textsAll_arrayHeaderCode, hcode]
      rfl
    · simp [linkAll_arrayHeaderCode]
  | .tuple location items => by
    simp only [LinksExpr, lowerExpr]
    apply (links_lowerElements c₀ items).bind
    rintro ⟨code, types⟩ hcode
    exact links_pure (code, .tuple types) hcode fun c _ => rfl

theorem links_lowerArgs (c₀ : LoweringContext) : (args : List Expr) →
    Links c₀ linkAll (fun code => Relocatable.textsAll code = Expr.textsAll args)
      fun c => lowerArgs c args
  | [] => by
    simp only [lowerArgs]
    exact links_pure [] (by simp; rfl) fun c _ => by simp
  | arg :: args => by
    simp only [lowerArgs]
    apply (links_lowerExpr c₀ arg).bind
    intro r hr
    apply (links_lowerArgs c₀ args).bind
    intro code hcode
    refine links_pure (r.1 ++ code) ?_ fun c _ => ?_
    · rw [Relocatable.textsAll_append, hr, hcode, Expr.textsAll_cons]
    · simp

theorem links_lowerElements (c₀ : LoweringContext) : (items : List Expr) →
    Links c₀ (fun l r => (linkAll l r.1, r.2))
      (fun r : List Relocatable × List DataType =>
        Relocatable.textsAll r.1 = Expr.textsAll items)
      fun c => lowerElements c items
  | [] => by
    simp only [lowerElements]
    exact links_pure ([], []) (by simp; rfl) fun c _ => by simp
  | item :: items => by
    simp only [lowerElements]
    apply (links_lowerExpr c₀ item).bind
    intro r hr
    apply (links_lowerElements c₀ items).bind
    rintro ⟨code, types⟩ hcode
    refine links_pure (r.1 ++ code, r.2 :: types) ?_ fun c _ => ?_
    · rw [Relocatable.textsAll_append, hr, hcode, Expr.textsAll_cons]
    · simp

theorem links_lowerItems (c₀ : LoweringContext) (base cell : Nat) (element : DataType) :
    (items : List Expr) →
      Links c₀ (fun l r => (linkAll l r.1, r.2))
        (fun r : List Relocatable × DataType => Relocatable.textsAll r.1 = Expr.textsAll items)
        fun c => lowerItems c base cell element items
  | [] => by
    simp only [lowerItems]
    exact links_pure ([], element) (by simp; rfl) fun c _ => by simp
  | item :: items => by
    simp only [lowerItems]
    apply (links_lowerExpr c₀ item).bind
    intro r hr
    -- each item hands its type on to the next one
    apply (links_lowerItems c₀ base (cell + 1) r.2 items).bind
    rintro ⟨code, last⟩ hcode
    refine links_pure (ofPlain [.localGet base] ++ r.1 ++ ofPlain [storeCell r.2 cell] ++ code,
      last) ?_ fun c _ => ?_
    · simp [hr, hcode, Expr.textsAll_cons]
    · simp

end

end Expr

end Lowering

end WasmCompiler
