import WasmCompiler.Proofs.Token.Spelling

/-!
# The tokens of a rendered text

A text that is written from tokens, each with a blank after it, consists of these tokens
(`lexesTo_render`). The tokens of a program that can be written can all be written, so its text is
read back as these tokens.

That the tokens can be written is shown for each form of tree on its own: `Expr.isWritable_kinds`
and `Stmt.isWritable_kinds` are inductions over the tree, and the lemmas before them are about the
punctuation that all trees share.
-/

namespace WasmCompiler

open TokenKind (grouped commas elements braced announced)

variable {kinds : List TokenKind}

/-- The text of writable tokens consists of these tokens. -/
theorem lexesTo_render (h : ∀ kind ∈ kinds, kind.isWritable) :
    LexesTo (TokenKind.render kinds) (kinds ++ [.endOfInput]) := by
  induction kinds with
  | nil => exact lexesTo_nil
  | cons kind kinds ih =>
    rw [List.forall_mem_cons] at h
    have hrest : LexesTo (' ' :: TokenKind.render kinds) (kinds ++ [.endOfInput]) :=
      (ih h.2).blank (by decide)
    have hrender : TokenKind.render (kind :: kinds) =
        kind.written.toList ++ ' ' :: TokenKind.render kinds := by
      simp [TokenKind.render]
    rw [hrender]
    have hblank : EndsToken (' ' :: TokenKind.render kinds) := by
      simpa [EndsToken] using by decide
    exact (isLexeme_written h.1 hblank).lexesTo hrest

/-! ### Tokens of writable trees

Punctuation first, then each kind of tree. -/

section Writable

variable {parts : List (List TokenKind)}

theorem forall_mem_grouped {needed : Bool} (h : ∀ kind ∈ kinds, kind.isWritable) :
    ∀ kind ∈ grouped needed kinds, kind.isWritable := by
  cases needed with
  | false => exact h
  | true => simpa [grouped, TokenKind.isWritable, or_imp, forall_and] using h

/-- Whatever holds of the parts and of a comma holds of the list. -/
theorem forall_mem_commas {P : TokenKind → Prop} (h : ∀ part ∈ parts, ∀ kind ∈ part, P kind)
    (hcomma : P .comma) : ∀ kind ∈ commas parts, P kind := by
  cases parts with
  | nil => simp [commas]
  | cons first others =>
    rw [List.forall_mem_cons] at h
    refine List.forall_mem_append.mpr ⟨h.1, fun kind hkind => ?_⟩
    obtain ⟨part, hpart, hmem⟩ := List.mem_flatMap.mp hkind
    rcases List.mem_cons.mp hmem with rfl | hmem
    · exact hcomma
    · exact h.2 part hpart kind hmem

/-- The elements of a tuple have the same tokens as a list, but for a comma. -/
theorem forall_mem_elements {P : TokenKind → Prop} (h : ∀ part ∈ parts, ∀ kind ∈ part, P kind)
    (hcomma : P .comma) : ∀ kind ∈ elements parts, P kind := by
  match parts, h with
  | [], _ => simp [elements]
  | [first], h => simpa [elements, TokenKind.otherElements, or_imp, forall_and, hcomma] using h
  | first :: second :: others, h => exact forall_mem_commas h hcomma

theorem forall_mem_braced (h : ∀ kind ∈ kinds, kind.isWritable) :
    ∀ kind ∈ braced kinds, kind.isWritable := by
  simpa [braced, TokenKind.isWritable, or_imp, forall_and] using h

/-- An optional part has its mark before it, and both can be written. -/
theorem forall_mem_announced {α : Type} {write : α → List TokenKind} {x : Option α} {f : α → Bool}
    (mark : TokenKind) (hmark : mark.isWritable) (hx : x.all f)
    (h : ∀ a, f a → ∀ kind ∈ write a, kind.isWritable) :
    ∀ kind ∈ announced mark write x, kind.isWritable := by
  cases x with
  | none => simp [announced]
  | some a => exact List.forall_mem_cons.mpr ⟨hmark, h a hx⟩

mutual

/-- The names in an annotation can be written, and brackets and commas always can. -/
theorem TypeName.isWritable_kinds :
    (t : TypeName) → t.isWritable → ∀ kind ∈ t.kinds, kind.isWritable
  | .named name, h => List.forall_mem_singleton.mpr h
  | .array element, h => by
    have := TypeName.isWritable_kinds element h
    simpa [TypeName.kinds, TokenKind.isWritable, or_imp, forall_and] using this
  | .tuple types, h => by
    have hall := TypeName.isWritable_kindsAll types (Bool.and_eq_true_iff.mp h).2
    have := forall_mem_elements hall rfl
    simpa [TypeName.kinds, TokenKind.isWritable, or_imp, forall_and] using this

theorem TypeName.isWritable_kindsAll :
    (ts : List TypeName) → TypeName.allWritable ts →
      ∀ part ∈ TypeName.kindsAll ts, ∀ kind ∈ part, kind.isWritable
  | [], _ => by simp [TypeName.kindsAll]
  | t :: ts, h => by
    obtain ⟨ht, hts⟩ := Bool.and_eq_true_iff.mp h
    exact List.forall_mem_cons.mpr
      ⟨TypeName.isWritable_kinds t ht, TypeName.isWritable_kindsAll ts hts⟩

end

theorem Field.isWritable_kinds {f : Field} (h : f.isWritable) :
    ∀ kind ∈ f.kinds, kind.isWritable := by
  obtain ⟨hname, htype⟩ := Bool.and_eq_true_iff.mp h
  exact List.forall_mem_cons.mpr
    ⟨hname, List.forall_mem_cons.mpr ⟨rfl, TypeName.isWritable_kinds _ htype⟩⟩

theorem Binding.isWritable_kinds {b : Binding} (h : b.isWritable) :
    ∀ kind ∈ b.kinds, kind.isWritable := by
  simp only [Binding.isWritable, Bool.and_eq_true] at h
  exact List.forall_mem_cons.mpr
    ⟨h.1.1, forall_mem_announced .colon rfl h.1.2 TypeName.isWritable_kinds⟩

theorem isWritable_unaryOp (op : UnaryOp) : op.kind.isWritable := by
  cases op <;> rfl

theorem isWritable_binaryOp (op : BinaryOp) : op.kind.isWritable := by
  cases op <;> rfl

mutual

/-- By induction over the expression; an operand in parentheses has two tokens more. -/
theorem Expr.isWritable_kinds : (e : Expr) → e.isWritable → ∀ kind ∈ e.kinds, kind.isWritable
  | .integer _ value, h => by
    simp only [Expr.isWritable, Bool.and_eq_true, decide_eq_true_eq] at h
    have hvalue : value.toNat ≤ maxInteger := by omega
    simpa [Expr.kinds, TokenKind.isWritable] using hvalue
  | .float .., h => by cases h
  | .string .., h | .identifier .., h => List.forall_mem_singleton.mpr h
  | .unary _ op operand, h => by
    exact List.forall_mem_cons.mpr
      ⟨isWritable_unaryOp op, forall_mem_grouped (Expr.isWritable_kinds operand h)⟩
  | .binary _ op left right, h => by
    obtain ⟨hleft, hright⟩ := Bool.and_eq_true_iff.mp h
    refine List.forall_mem_append.mpr ⟨forall_mem_grouped (Expr.isWritable_kinds left hleft), ?_⟩
    exact List.forall_mem_cons.mpr
      ⟨isWritable_binaryOp op, forall_mem_grouped (Expr.isWritable_kinds right hright)⟩
  | .call _ callee args, h => by
    obtain ⟨hcallee, hargs⟩ := Bool.and_eq_true_iff.mp h
    have := forall_mem_commas (Expr.isWritable_kindsAll args hargs) rfl
    simpa [Expr.kinds, TokenKind.isWritable, or_imp, forall_and, hcallee] using this
  | .member _ base name, h => by
    obtain ⟨hbase, hname⟩ := Bool.and_eq_true_iff.mp h
    refine List.forall_mem_append.mpr ⟨forall_mem_grouped (Expr.isWritable_kinds base hbase), ?_⟩
    simpa [TokenKind.isWritable] using hname
  | .index _ base position, h => by
    obtain ⟨hbase, hposition⟩ := Bool.and_eq_true_iff.mp h
    refine List.forall_mem_append.mpr ⟨forall_mem_grouped (Expr.isWritable_kinds base hbase), ?_⟩
    have := Expr.isWritable_kinds position hposition
    simpa [TokenKind.isWritable, or_imp, forall_and] using this
  | .array _ items, h => by
    have := forall_mem_commas (Expr.isWritable_kindsAll items h) rfl
    simpa [Expr.kinds, TokenKind.isWritable, or_imp, forall_and] using this
  | .tuple _ items, h => by
    have hall := Expr.isWritable_kindsAll items (Bool.and_eq_true_iff.mp h).2
    have := forall_mem_elements hall rfl
    simpa [Expr.kinds, TokenKind.isWritable, or_imp, forall_and] using this

theorem Expr.isWritable_kindsAll :
    (es : List Expr) → Expr.allWritable es →
      ∀ part ∈ Expr.kindsAll es, ∀ kind ∈ part, kind.isWritable
  | [], _ => by simp [Expr.kindsAll]
  | e :: es, h => by
    obtain ⟨he, hes⟩ := Bool.and_eq_true_iff.mp h
    exact List.forall_mem_cons.mpr ⟨Expr.isWritable_kinds e he, Expr.isWritable_kindsAll es hes⟩

end

theorem Field.forall_mem_commas_kinds {fields : List Field} (h : fields.all Field.isWritable) :
    ∀ kind ∈ commas (fields.map Field.kinds), kind.isWritable :=
  forall_mem_commas (List.forall_mem_map.mpr fun f hf =>
    Field.isWritable_kinds (List.all_eq_true.mp h f hf)) rfl

theorem FunctionHeader.isWritable_kinds {header : FunctionHeader} (h : header.isWritable) :
    ∀ kind ∈ header.kinds, kind.isWritable := by
  simp only [FunctionHeader.isWritable, Bool.and_eq_true] at h
  obtain ⟨⟨hname, hparams⟩, hreturn⟩ := h
  have hparams := Field.forall_mem_commas_kinds hparams
  have hreturn := forall_mem_announced .arrow rfl hreturn TypeName.isWritable_kinds
  have hsignature : ∀ kind ∈ header.signature, kind.isWritable := by
    simpa [FunctionHeader.signature, TokenKind.isWritable, or_imp, forall_and, hname] using
      And.intro hparams hreturn
  unfold FunctionHeader.kinds
  split
  · exact List.forall_mem_cons.mpr ⟨rfl, hsignature⟩
  · exact hsignature

theorem StructDecl.isWritable_kinds {decl : StructDecl} (h : decl.isWritable) :
    ∀ kind ∈ decl.kinds, kind.isWritable := by
  obtain ⟨hname, hfields⟩ := Bool.and_eq_true_iff.mp h
  exact List.forall_mem_cons.mpr ⟨rfl, List.forall_mem_cons.mpr
    ⟨hname, forall_mem_braced (Field.forall_mem_commas_kinds hfields)⟩⟩

mutual

/-- By induction over the statement, with the tokens of its expressions and annotations. -/
theorem Stmt.isWritable_kinds : (s : Stmt) → s.isWritable → ∀ kind ∈ s.kinds, kind.isWritable
  | .declare _ mutable bindings value, h => by
    simp only [Stmt.isWritable, Bool.and_eq_true] at h
    have hbindings := forall_mem_commas (List.forall_mem_map.mpr fun b hb =>
      Binding.isWritable_kinds (List.all_eq_true.mp h.1.2 b hb)) rfl
    have hvalue := forall_mem_announced .assign rfl h.2 Expr.isWritable_kinds
    have hword : (if mutable then TokenKind.kwVar else .kwLet).isWritable := by
      cases mutable <;> rfl
    exact List.forall_mem_cons.mpr ⟨hword, List.forall_mem_append.mpr ⟨hbindings, hvalue⟩⟩
  | .function _ header body, h => by
    obtain ⟨hheader, hbody⟩ := Bool.and_eq_true_iff.mp h
    exact List.forall_mem_append.mpr ⟨FunctionHeader.isWritable_kinds hheader,
      forall_mem_braced (Stmt.isWritable_kindsAll body hbody)⟩
  | .struct _ decl, h => StructDecl.isWritable_kinds h
  | .ret _ none, _ => by simp [Stmt.kinds, TokenKind.isWritable]
  | .ret _ (some value), h | .print _ value, h =>
    List.forall_mem_cons.mpr ⟨rfl, Expr.isWritable_kinds value h⟩
  | .assign _ target value, h => by
    simp only [Stmt.isWritable, Bool.and_eq_true] at h
    exact List.forall_mem_append.mpr ⟨Expr.isWritable_kinds target h.1.2,
      List.forall_mem_cons.mpr ⟨rfl, Expr.isWritable_kinds value h.2⟩⟩
  | .conditional _ condition body none, h | .whileLoop _ condition body, h => by
    obtain ⟨hcondition, hbody⟩ := Bool.and_eq_true_iff.mp h
    exact List.forall_mem_cons.mpr ⟨rfl, List.forall_mem_append.mpr
      ⟨Expr.isWritable_kinds condition hcondition,
        forall_mem_braced (Stmt.isWritable_kindsAll body hbody)⟩⟩
  | .conditional _ condition body (some alternate), h => by
    simp only [Stmt.isWritable, Bool.and_eq_true] at h
    obtain ⟨⟨⟨hcondition, hbody⟩, -⟩, halternate⟩ := h
    refine List.forall_mem_cons.mpr ⟨rfl, List.forall_mem_append.mpr
      ⟨List.forall_mem_append.mpr ⟨Expr.isWritable_kinds condition hcondition,
        forall_mem_braced (Stmt.isWritable_kindsAll body hbody)⟩, ?_⟩⟩
    exact List.forall_mem_cons.mpr ⟨rfl, Stmt.isWritable_kinds alternate halternate⟩
  | .expression _ value, h => Expr.isWritable_kinds value h
  | .block _ body, h => forall_mem_braced (Stmt.isWritable_kindsAll body h)

theorem Stmt.isWritable_kindsAll :
    (ss : List Stmt) → Stmt.allWritable ss → ∀ kind ∈ Stmt.kindsAll ss, kind.isWritable
  | [], _ => by simp [Stmt.kindsAll]
  | s :: ss, h => by
    obtain ⟨hs, hss⟩ := Bool.and_eq_true_iff.mp h
    exact List.forall_mem_append.mpr ⟨Stmt.isWritable_kinds s hs,
      List.forall_mem_cons.mpr ⟨rfl, Stmt.isWritable_kindsAll ss hss⟩⟩

end

end Writable

/-- A text that is written for a program consists of the program's tokens. -/
theorem Program.lexesTo_render {program : Program} (h : program.isWritable) :
    LexesTo (TokenKind.render program.kinds) (program.kinds ++ [.endOfInput]) :=
  WasmCompiler.lexesTo_render (Stmt.isWritable_kindsAll _ h)

end WasmCompiler
