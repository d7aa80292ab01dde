import WasmCompiler.Proofs.Tree.Interning
import WasmCompiler.Proofs.Tree.Roundtrip

/-!
# How deep annotations are

The levels of nesting that a parser counts are those of expressions and blocks; a type annotation
takes none of them. So nothing bounds the depth of an annotation but the length of the text. Every
level takes two tokens, the innermost takes one, and at least three more stand before an annotation
(`Pays`). A declaration without a value gets by with that and a semicolon
(`isGreatest_annotation_depth`).

An annotation that can be written can stand wherever one may (`Program.annotated`).

The accounting goes as follows:

* `Paid` and `Pays` say what tokens have to cover, and the rules below them carry this through a
  bind, a loop and a list with commas;
* `consumes_typeNameUpTo` is the induction on the fuel of the parser of types, where each level
  brings its two brackets;
* `levelPays` is the induction on the nesting levels of statements, and `depth_le_of_parse` reads
  off the bound for a whole text.
-/

namespace WasmCompiler

/-! ### Annotations

The depth of an annotation and where annotations stand in a program. -/

mutual

/-- The depth of an annotation; a name has depth one. -/
def TypeName.depth : TypeName → Nat
  | .named _ => 1
  | .array element => element.depth + 1
  | .tuple elements => TypeName.maxDepth elements + 1

/-- The depth of the deepest of some annotations. -/
def TypeName.maxDepth : List TypeName → Nat
  | [] => 0
  | t :: ts => max t.depth (TypeName.maxDepth ts)

end

/-- The maximum is bounded exactly if each of the annotations is. -/
theorem TypeName.maxDepth_le_iff {ts : List TypeName} {n : Nat} :
    TypeName.maxDepth ts ≤ n ↔ ∀ t ∈ ts, t.depth ≤ n := by
  induction ts with
  | nil => simp [TypeName.maxDepth]
  | cons t ts ih => simp [TypeName.maxDepth, ih]

/-- No annotation has depth zero, so one token is always there to save. -/
theorem TypeName.depth_pos (t : TypeName) : 0 < t.depth := by
  cases t <;> simp [TypeName.depth]

def FunctionHeader.annotations (header : FunctionHeader) : List TypeName :=
  header.params.map (·.type) ++ header.returnType.toList

mutual

/-- The annotations in a statement: of parameters, results, fields and declared names. -/
def Stmt.annotations : Stmt → List TypeName
  | .declare _ _ bindings _ => bindings.flatMap (·.declared.toList)
  | .function _ header body => header.annotations ++ Stmt.annotationsAll body
  | .struct _ decl => decl.fields.map (·.type)
  | .whileLoop _ _ body | .block _ body | .conditional _ _ body none => Stmt.annotationsAll body
  | .conditional _ _ body (some alternate) => Stmt.annotationsAll body ++ alternate.annotations
  | .ret .. | .assign .. | .print .. | .expression .. => []

/-- The annotations in some statements. -/
def Stmt.annotationsAll : List Stmt → List TypeName
  | [] => []
  | s :: ss => s.annotations ++ Stmt.annotationsAll ss

end

/-- The annotations of a list are those of its members, in order. -/
theorem Stmt.annotationsAll_eq_flatMap (ss : List Stmt) :
    Stmt.annotationsAll ss = ss.flatMap Stmt.annotations := by
  induction ss with
  | nil => rfl
  | cons s ss ih => rw [Stmt.annotationsAll, List.flatMap_cons, ih]

/-- The annotations in a program. -/
def Program.annotations (program : Program) : List TypeName :=
  Stmt.annotationsAll program.statements

namespace Parse

variable {α β : Type} {known : List TypeName} {k : Nat} {written : α → List TypeName}
  {written' : β → List TypeName}

/-! ### Tokens pay for depth

The surplus `k` counts the tokens that stand before an annotation, and the known ones are those that
earlier tokens have paid for. -/

/-- Each of some annotations is a known one, or there are enough tokens for it: two for each level,
without the one that the innermost level saves, and `k` more. -/
def Paid (k : Nat) (known : List TypeName) (tokens : List Token) (found : List TypeName) : Prop :=
  ∀ t ∈ found, t ∈ known ∨ 2 * t.depth + k ≤ tokens.length + 1

/-- More tokens pay as well, and as many as there are more may be counted to the surplus. -/
theorem Paid.more {k' : Nat} {tokens tokens' : List Token} {found : List TypeName}
    (h : Paid k known tokens found) (hlength : tokens.length + k' ≤ tokens'.length + k) :
    Paid k' known tokens' found :=
  fun t ht => (h t ht).imp_right fun hpay => by omega

/-- Each annotation is paid for by all the tokens, so two lists need no more than one. -/
theorem Paid.append {tokens : List Token} {found found' : List TypeName}
    (h : Paid k known tokens found) (h' : Paid k known tokens found') :
    Paid k known tokens (found ++ found') :=
  List.forall_mem_append.mpr ⟨h, h'⟩

/-- The tokens that the operation takes pay for the annotations in its result. -/
def Pays (k : Nat) (known : List TypeName) (m : ParseM α) (written : α → List TypeName) : Prop :=
  ∀ ls, Consumes m ls fun tokens _ a => Paid k known tokens (written a)

/-- What takes no tokens must bring nothing new. -/
theorem pays_pure {a : α} (h : written a ⊆ known) : Pays k known (pure a) written :=
  fun _ => consumes_pure fun _ ht => .inl (h ht)

/-- What is paid for is known from then on. -/
theorem consumes_bind_paid {m : ParseM α} {f : α → ParseM β} {ls : List Lexeme}
    (hm : Consumes m ls fun tokens _ a => Paid k known tokens (written a))
    (hf : ∀ a, Pays k (known ++ written a) (f a) written') :
    Consumes (m >>= f) ls fun tokens _ b => Paid k known tokens (written' b) := by
  -- an annotation that is known now was known before, or the tokens of `m` have paid for it
  refine hm.bind fun tokens rest a _ hpaid => (hf a rest).weaken fun others _ b hothers t ht => ?_
  have hlength : (tokens ++ others).length = tokens.length + others.length := List.length_append
  rcases hothers t ht with hknown | hpay
  · rcases List.mem_append.mp hknown with hknown | hnew
    · exact .inl hknown
    · exact hpaid.more (by omega) t hnew
  · exact .inr (by omega)

/-- The annotations of the first operation are known in the second, and its tokens come on top. -/
theorem Pays.bind {m : ParseM α} {f : α → ParseM β} (hm : Pays k known m written)
    (hf : ∀ a, Pays k (known ++ written a) (f a) written') : Pays k known (m >>= f) written' :=
  fun ls => consumes_bind_paid (hm ls) hf

/-- A smaller surplus is easier to pay, and it does not matter what else is known. -/
theorem Pays.weaken {k' : Nat} {m : ParseM α} (hm : Pays k [] m written) (hk : k' ≤ k) :
    Pays k' known m written :=
  fun ls => (hm ls).weaken fun _ _ _ hpaid t ht =>
    (hpaid.more (by omega) t ht).imp_left fun h => absurd h List.not_mem_nil

theorem Pays.map {m : ParseM α} {f : α → β} (hm : Pays k known m fun a => written' (f a)) :
    Pays k known (f <$> m) written' :=
  fun ls => Consumes.map (hm ls)

theorem Pays.ite {c : Prop} [Decidable c] {m m' : ParseM α} (hm : Pays k known m written)
    (hm' : Pays k known m' written) : Pays k known (if c then m else m') written :=
  fun ls => Consumes.ite (fun _ => hm ls) fun _ => hm' ls

/-- Tokens that are taken beside do no harm. -/
theorem Steady.pays {m : ParseM α} {f : α → ParseM β} (hm : Steady m)
    (hf : ∀ a, Pays k known (f a) written') : Pays k known (m >>= f) written' := by
  intro ls
  refine (hm ls).bind fun tokens rest a _ _ => (hf a rest).weaken fun others _ b hpaid => ?_
  exact hpaid.more (by rw [List.length_append]; omega)

/-- A token that is taken first is one more. -/
theorem Moves.pays {m : ParseM α} {f : α → ParseM β} (hm : Moves m)
    (hf : ∀ a, Pays k known (f a) written') : Pays (k + 1) known (m >>= f) written' := by
  intro ls
  refine (hm ls).bind fun tokens rest a _ htokens => (hf a rest).weaken fun others _ b hpaid => ?_
  have hone := List.length_pos_iff.mpr htokens
  exact hpaid.more (by rw [List.length_append]; omega)

/-- By induction on what is left to read: each item is paid for by what is read with it. -/
theorem Pays.many {more : ParseM Bool} {item : ParseM α} (hmore : Steady more) (hitem : Moves item)
    (hpays : Pays k known item written) : Pays k known (many more item) (·.flatMap written) := by
  refine consumes_many hmore (fun ls => (hitem ls).and (hpays ls)) (fun _ h => by simp [h.1])
    (fun _ => by simp [Paid]) fun _ h hafter => ?_
  simp only [List.flatMap_cons]
  exact (h.2.more (by simp only [List.length_append]; omega)).append
    (hafter.more (by simp only [List.length_append]; omega))

/-- Each item of a list pays for its own annotations, and the commas come on top. -/
theorem Pays.commaSeparated {item : ParseM α} (hpays : Pays k known item written) :
    Pays k known (commaSeparated item) (·.flatMap written) := by
  refine consumes_commaSeparated hpays (fun h => by simpa using h) fun h _ hafter => ?_
  simp only [List.flatMap_cons]
  exact (h.more (by simp only [List.length_append]; omega)).append
    (hafter.more (by simp only [List.length_append, List.length_cons]; omega))

/-! ### Types

The parser of types is the only one that builds annotations, and it takes every token it reads. -/

/-- Annotations after a first one are paid for one by one. -/
theorem consumes_otherTypeNames {n : Nat}
    (h : ∀ ls, Consumes (typeNameUpTo n) ls fun tokens _ t => 2 * t.depth ≤ tokens.length + 1)
    (ls : List Lexeme) :
    Consumes (many anotherElement (typeNameUpTo n)) ls fun tokens _ ts =>
      ∀ t ∈ ts, 2 * t.depth ≤ tokens.length + 1 := by
  refine consumes_many steady_anotherElement h (fun {_ others _ _ t} _ hpaid => ?_) (by simp)
    (fun _ hpaid hafter => ?_) ls
  · have hpos := t.depth_pos
    rintro hnil
    simp only [(List.append_eq_nil_iff.mp hnil).2, List.length_nil] at hpaid
    omega
  · simp only [List.length_append]
    refine List.forall_mem_cons.mpr ⟨by omega, fun t ht => ?_⟩
    have := hafter t ht
    omega

/-- An annotation is paid for by its own tokens. -/
theorem consumes_typeNameUpTo (n : Nat) (ls : List Lexeme) :
    Consumes (typeNameUpTo n) ls fun tokens _ t => 2 * t.depth ≤ tokens.length + 1 := by
  induction n generalizing ls with
  | zero => exact consumes_unexpected
  | succ n ih =>
    refine consumes_of_cons fun token more hls => ?_
    subst hls
    rw [typeNameUpTo]
    refine consumes_peek ?_
    split
    · rename_i name hkind
      exact consumes_advance (by rw [hkind]; rfl) (consumes_pure (by simp [TypeName.depth]))
    · rename_i hkind
      refine consumes_advance (by rw [hkind]; rfl) ?_
      -- two brackets pay for one level
      refine (ih more).bind fun inner rest element _ helement => ?_
      refine consumes_expect rfl fun close rest' _ _ => consumes_pure ?_
      simp only [TypeName.depth, List.length_cons, List.length_append, List.length_nil]
      omega
    · rename_i hkind
      refine consumes_advance (by rw [hkind]; rfl) ?_
      refine (ih more).bind fun inner rest first _ hfirst => ?_
      refine (steady_check .comma rest).bind fun _ rest' _ _ _ => ?_
      refine Consumes.ite (fun _ => ?_) fun _ => ?_
      · -- the parentheses pay for the tuple, the deepest element for the rest
        refine (consumes_otherTypeNames ih rest').bind fun tokens rest'' others _ hothers => ?_
        refine consumes_expect rfl fun close _ _ _ => consumes_pure ?_
        have hall : ∀ t ∈ first :: others,
            t.depth ≤ (inner.length + tokens.length + 1) / 2 := by
          refine List.forall_mem_cons.mpr ⟨by omega, fun t ht => ?_⟩
          have := hothers t ht
          omega
        have hdepth := TypeName.maxDepth_le_iff.mpr hall
        simp only [TypeName.depth, List.length_cons, List.length_append, List.length_nil]
        omega
      · refine consumes_expect rfl fun close _ _ _ => consumes_pure ?_
        simp only [List.length_cons, List.length_append, List.length_nil]
        omega
    · exact consumes_unexpected

/-- The parser of types has as much fuel as there are tokens, so the induction covers it. -/
theorem pays_typeName : Pays 0 known typeName fun t => [t] := by
  intro ls
  refine consumes_rounds fun n _ => (consumes_typeNameUpTo n ls).weaken fun _ _ t ht => ?_
  exact List.forall_mem_singleton.mpr (.inr ht)

/-- An annotation that may be missing. -/
theorem pays_someTypeName : Pays 0 known (some <$> typeName) Option.toList :=
  Pays.map pays_typeName

/-- The name and the colon before an annotation are two more tokens. -/
theorem pays_field (wanted : Wanted) : Pays 2 known (field wanted) fun f => [f.type] := by
  refine (moves_expectName wanted).pays fun _ => (moves_expect rfl).pays fun _ => ?_
  exact pays_typeName.bind fun _ => pays_pure (by simp)

/-- A declared name pays for two tokens more than its annotation has, when it has one. -/
theorem pays_binding : Pays 2 known binding (·.declared.toList) := by
  -- the colon is looked at before it is taken, so it is counted where it is known to be there
  have hannotated (name : String × Location) : Pays 0 known (do
      let declared ← some <$> typeName
      return (⟨name.1, declared, none, name.2⟩ : Binding)) (·.declared.toList) :=
    pays_someTypeName.bind fun _ => pays_pure fun _ => List.mem_append_right _
  refine (moves_expectName _).pays fun name => fun ls => ?_
  refine consumes_accept rfl (fun token more _ _ => ?_) fun _ _ _ _ => ?_
  · refine (hannotated name more).weaken fun tokens _ b hpaid => ?_
    exact hpaid.more (by rw [List.length_cons])
  · simp only [Bool.false_eq_true, if_false, pure_bind]
    exact pays_pure (by simp) ls

/-! ### Statements

Three tokens stand before each annotation of a statement: the keyword, a name, and a colon or a
bracket. -/

attribute [local simp] Stmt.annotations

/-- The statements of a nesting level pay for three tokens more than their annotations have. -/
structure LevelPays (level : Level) : Prop where
  moves : LevelMoves level
  statement : Pays 3 [] level.statement Stmt.annotations
  conditional : Pays 3 [] level.conditional Stmt.annotations

variable {inner : Option Level} {levels : Nat}

theorem Pays.descend {f : Level → ParseM β}
    (hf : ∀ level ∈ inner, Pays k known (f level) written') :
    Pays k known (Parse.descend inner >>= f) written' := by
  cases inner with
  | none =>
    intro ls
    -- below the last level nothing is read
    have hfail : Consumes (fail .tooDeep : ParseM Level) ls fun _ _ _ => False := consumes_fail
    exact hfail.bind fun _ _ _ _ h => h.elim
  | some level =>
    rw [Parse.descend, pure_bind]
    exact hf level rfl

/-- A block pays at the level below, and its braces come on top. -/
theorem pays_block (hinner : ∀ level ∈ inner, LevelPays level) :
    Pays 3 known (block inner) Stmt.annotationsAll := by
  refine (moves_expect rfl).steady.pays fun _ => Pays.descend fun level hlevel => ?_
  have hlevel := hinner level hlevel
  refine steady_skipSemicolons.pays fun _ => ?_
  refine (Pays.many (steady_notAt _) hlevel.moves.statement
    (hlevel.statement.weaken (Nat.le_refl 3))).bind fun ss => ?_
  refine (moves_expect rfl).steady.pays fun _ => pays_pure fun t ht => ?_
  rw [Stmt.annotationsAll_eq_flatMap] at ht
  exact List.mem_append_right _ ht

/-- The word, the name and the parenthesis are the three tokens. -/
theorem pays_function (hinner : ∀ level ∈ inner, LevelPays level) (exported : Bool) :
    Pays 3 known (function inner exported) Stmt.annotations := by
  refine (moves_expect rfl).pays fun token => (moves_expectName _).pays fun name => ?_
  refine (moves_expect rfl).pays fun _ => (steady_check _).pays fun _ => ?_
  -- parameters and result are paid for when the body is read, which pays for its own annotations
  have hbody (params : List Field) (returnType : Option TypeName) :
      Pays 0 ((known ++ params.flatMap fun f => [f.type]) ++ returnType.toList) (do
        return Stmt.function token.location ⟨name.1, params, returnType, exported⟩ (← block inner))
        Stmt.annotations := by
    refine ((pays_block hinner).weaken (Nat.zero_le 3)).bind fun body => pays_pure fun t ht => ?_
    rw [Stmt.annotations, FunctionHeader.annotations, List.map_eq_flatMap] at ht
    rw [List.append_assoc, List.append_assoc, ← List.append_assoc (List.flatMap _ _)]
    exact List.mem_append_right _ ht
  have hrest (params : List Field) : Pays 0 (known ++ params.flatMap fun f => [f.type]) (do
      let _ ← expect .rparen
      let returnType ← if ← accept .arrow then some <$> typeName else pure none
      let body ← block inner
      return Stmt.function token.location ⟨name.1, params, returnType, exported⟩ body)
      Stmt.annotations := by
    refine (moves_expect rfl).steady.pays fun _ => (steady_accept rfl).pays fun _ => Pays.ite ?_ ?_
    · exact pays_someTypeName.bind (hbody params)
    · have hnone : Pays 0 (known ++ params.flatMap fun f => [f.type])
          (pure (none : Option TypeName)) Option.toList := pays_pure (by simp)
      exact hnone.bind (hbody params)
  refine Pays.ite ?_ ?_
  · have hnone : Pays 0 known (pure ([] : List Field)) fun fs => fs.flatMap fun f => [f.type] :=
      pays_pure (by simp)
    exact hnone.bind hrest
  · exact ((pays_field .parameterName).weaken (Nat.zero_le 2)).commaSeparated.bind hrest

/-- The word `export` is one more token before the function. -/
theorem pays_exportedFunction (hinner : ∀ level ∈ inner, LevelPays level) :
    Pays 3 known (exportedFunction inner) Stmt.annotations :=
  (moves_expect rfl).steady.pays fun _ => (steady_check _).pays fun _ =>
    Pays.ite (pays_function hinner true) fun _ => consumes_unexpected

/-- The word, the name and the brace are the three tokens. -/
theorem pays_structDecl : Pays 3 known structDecl Stmt.annotations := by
  have hmoves : Moves (do
      let f ← field .fieldName
      let _ ← accept .comma
      return f) :=
    (moves_field _).bind fun _ => (steady_accept rfl).bind fun _ => steady_pure _
  have hfield : Pays 0 known (do
      let f ← field .fieldName
      let _ ← accept .comma
      return f) fun f => [f.type] :=
    ((pays_field _).weaken (Nat.zero_le 2)).bind fun _ => (steady_accept rfl).pays fun _ =>
      pays_pure fun _ => List.mem_append_right _
  refine (moves_expect rfl).pays fun _ => (moves_expectName _).pays fun _ => ?_
  refine (moves_expect rfl).pays fun _ => ?_
  refine (Pays.many (steady_notAt _) hmoves hfield).bind fun fields => ?_
  refine (moves_expect rfl).steady.pays fun _ => pays_pure fun t ht => ?_
  rw [Stmt.annotations, List.map_eq_flatMap] at ht
  exact List.mem_append_right _ ht

/-- A declaration takes its keyword without a look at it. -/
theorem consumes_declaration_paid {token : Token} {more : List Lexeme} (h : isPlain token.kind) :
    Consumes (declaration levels) (.ok token :: more) fun tokens _ s =>
      Paid 3 known tokens s.annotations := by
  refine consumes_advance h ?_
  have hrest : Pays 2 known (do
      let bindings ← commaSeparated binding
      let value ← if ← accept .assign then some <$> expression levels lowest else pure none
      return Stmt.declare token.location (token.kind = .kwVar) bindings value)
      Stmt.annotations := by
    refine pays_binding.commaSeparated.bind fun bindings => ?_
    refine (steady_accept rfl).pays fun _ => Pays.ite ?_ ?_
    · exact (steady_value levels).pays fun _ => pays_pure fun _ => List.mem_append_right _
    · exact (steady_pure none).pays fun _ => pays_pure fun _ => List.mem_append_right _
  exact (hrest more).weaken fun tokens _ s hpaid => hpaid.more (by rw [List.length_cons])

/-- The word `else` is followed by a block, or by another conditional one level down. -/
theorem pays_alternate (hinner : ∀ level ∈ inner, LevelPays level) :
    Pays 3 known (alternate inner) Stmt.annotations := by
  refine steady_peek.pays fun _ => Pays.ite ?_ ?_
  · exact Pays.descend fun level hlevel => (hinner level hlevel).conditional.weaken (Nat.le_refl 3)
  · exact (pays_block hinner).bind fun _ => pays_pure fun _ => List.mem_append_right _

/-- A condition has no annotations, and both of its blocks pay for theirs. -/
theorem pays_conditional (hinner : ∀ level ∈ inner, LevelPays level) :
    Pays 3 known (conditional levels inner) Stmt.annotations := by
  refine (moves_expect rfl).steady.pays fun token => ?_
  refine (moves_expression levels lowest).steady.pays fun condition => ?_
  refine (pays_block hinner).bind fun body => ?_
  have hwhole (other : Option Stmt) : Pays 3
      ((known ++ Stmt.annotationsAll body) ++ other.toList.flatMap Stmt.annotations)
      (return Stmt.conditional token.location condition body other) Stmt.annotations := by
    refine pays_pure fun t ht => ?_
    cases other with
    | none => exact List.mem_append_left _ (List.mem_append_right _ ht)
    | some alternate => simpa using Or.inr ht
  refine (steady_accept rfl).pays fun _ => Pays.ite ?_ ?_
  · refine Pays.bind (Pays.map ?_) hwhole
    simpa using pays_alternate hinner
  · exact (pays_pure (by simp)).bind hwhole

theorem pays_whileLoop (hinner : ∀ level ∈ inner, LevelPays level) :
    Pays 3 known (whileLoop levels inner) Stmt.annotations :=
  (moves_expect rfl).steady.pays fun _ => (moves_expression levels lowest).steady.pays fun _ =>
    (pays_block hinner).bind fun _ => pays_pure fun _ => List.mem_append_right _

theorem pays_returnStmt : Pays k known (returnStmt levels) Stmt.annotations := by
  refine (moves_expect rfl).steady.pays fun _ => steady_peek.pays fun _ => Pays.ite ?_ ?_
  · exact (steady_pure none).pays fun _ => pays_pure (by simp)
  · exact (steady_value levels).pays fun _ => pays_pure (by simp)

theorem pays_printStmt : Pays k known (printStmt levels) Stmt.annotations :=
  (moves_expect rfl).steady.pays fun _ => (moves_expression levels lowest).steady.pays fun _ =>
    pays_pure (by simp)

/-- An assignment has no annotations, and an expression has none. -/
theorem pays_assignmentOrExpression :
    Pays k known (assignmentOrExpression levels) Stmt.annotations := by
  refine steady_peek.pays fun start => (moves_expression levels lowest).steady.pays fun target => ?_
  intro ls
  refine consumes_of_cons fun token more hls => ?_
  subst hls
  refine consumes_check (Consumes.ite (fun hassign => ?_) fun _ => ?_)
  · have hkind : token.kind = .assign := by simpa using hassign
    have hvalue : Pays k known (do
        let value ← expression levels lowest
        return Stmt.assign start.location target value) Stmt.annotations :=
      (moves_expression levels lowest).steady.pays fun _ => pays_pure (by simp)
    refine Consumes.ite (fun _ => consumes_advance (by rw [hkind]; rfl) ?_) fun _ => ?_
    · refine (hvalue more).weaken fun tokens _ s hpaid => ?_
      exact hpaid.more (by rw [List.length_cons]; omega)
    · have hthrow {e : ParseError} : Consumes (throw e : ParseM PUnit) (.ok token :: more)
          fun _ _ _ => False := consumes_throw
      exact hthrow.bind fun _ _ _ _ h => h.elim
  · exact pays_pure (by simp) _

/-- One case for each keyword, and what begins with none is an assignment or an expression. -/
theorem pays_statement (hinner : ∀ level ∈ inner, LevelPays level) :
    Pays 3 [] (statement levels inner) Stmt.annotations := by
  intro ls
  refine consumes_of_cons fun token more hls => ?_
  subst hls
  -- the semicolons behind a statement only add tokens
  have hskip {m : ParseM Stmt} (hm : Consumes m (.ok token :: more) fun tokens _ s =>
      Paid 3 [] tokens s.annotations) :
      Consumes (do let s ← m; skipSemicolons; return s) (.ok token :: more) fun tokens _ s =>
        Paid 3 [] tokens s.annotations :=
    consumes_bind_paid hm fun _ => steady_skipSemicolons.pays fun _ => pays_pure fun _ ht => ht
  have hblock : Pays 3 [] (Stmt.block token.location <$> block inner) Stmt.annotations :=
    Pays.map (show Pays 3 [] _ Stmt.annotationsAll from pays_block hinner)
  refine consumes_peek ?_
  dsimp only
  split
  · exact hskip (pays_exportedFunction hinner _)
  · exact hskip (pays_function hinner false _)
  · exact hskip (pays_returnStmt _)
  · rename_i hkind
    exact hskip (consumes_declaration_paid (by rw [hkind]; rfl))
  · rename_i hkind
    exact hskip (consumes_declaration_paid (by rw [hkind]; rfl))
  · exact hskip (pays_conditional hinner _)
  · exact hskip (pays_whileLoop hinner _)
  · exact hskip (pays_printStmt _)
  · exact hskip (pays_structDecl _)
  · exact hskip (hblock _)
  · exact hskip (pays_assignmentOrExpression _)

/-- By induction on the levels: the statements of a level pay if those of the level below do. -/
theorem levelPays (n : Nat) : LevelPays (level n) := by
  induction n with
  | zero =>
    have hinner : ∀ level ∈ (none : Option Level), LevelPays level := by simp
    exact ⟨levelMoves 0, pays_statement hinner, pays_conditional hinner⟩
  | succ n ih =>
    have hinner : ∀ l ∈ some (level n), LevelPays l := by simpa using ih
    exact ⟨levelMoves (n + 1), pays_statement hinner, pays_conditional hinner⟩

/-- The top level is a loop over statements. -/
theorem pays_program : Pays 3 [] program Program.annotations := by
  refine steady_skipSemicolons.pays fun _ => ?_
  refine (Pays.many (steady_notAt _) (levelMoves maxNesting).statement
    (levelPays maxNesting).statement).bind fun ss => pays_pure fun t ht => ?_
  rw [Program.annotations, Stmt.annotationsAll_eq_flatMap] at ht
  exact List.mem_append_right _ ht

/-- The tokens of a text pay for the annotations of its program. -/
theorem depth_le_of_parse {text : String} {strings strings' : StringPool} {P : Program}
    (h : parseProgram text strings = (.ok P, strings')) {t : TypeName} (ht : t ∈ P.annotations) :
    2 * t.depth + 3 ≤ (lexemes text).length := by
  obtain ⟨p, p', hstart, hrun, -⟩ := parseProgram_eq_ok_iff.mp h
  obtain ⟨tokens, rest, hls, hp', -, hpaid⟩ := pays_program _ p p' _ (at_of_start hstart).1 hrun
  -- the end of the text is left
  obtain ⟨more, rfl⟩ := hp'.eq_cons
  have hpay := (hpaid t ht).resolve_left List.not_mem_nil
  rw [hls, List.length_append, List.length_map, List.length_cons]
  omega

/-- A program is read back if its statements need no more levels than there are, and if there are
no string literals in it. -/
theorem exists_parse_render {P : Program} (hP : P.isWritable)
    (hstmts : ∀ s ∈ P.statements, IsReadStmtAt False maxNesting s) (htexts : P.texts = [])
    (strings : StringPool) :
    ∃ parsed, parseProgram P.render strings = (.ok parsed, strings) ∧
      parsed.unlocated = P.unlocated := by
  obtain ⟨p, hstart, hfaces, hstrings⟩ :=
    exists_start (Program.isWritten_render hP) (by simp) strings
  -- there is no string literal, so the pool stays as it is
  have hnone : TokenKind.texts (P.kinds ++ [TokenKind.endOfInput]) = [] := by
    rw [TokenKind.texts, List.filterMap_append, ← TokenKind.texts, ← Program.texts, htexts]
    rfl
  have houtcome := reads_program_of_statements hstmts p hfaces
  rw [hnone, StringPool.internAll?, hstrings] at houtcome
  cases hrun : program p with
  | ok parsed p' =>
    rw [hrun] at houtcome
    obtain ⟨hparsed, -, hpool⟩ := houtcome
    obtain rfl : p'.strings = strings := Option.some.inj hpool
    exact ⟨parsed, by simp only [parseProgram, hstart, hrun], hparsed⟩
  | error e p' =>
    rw [hrun] at houtcome
    -- it is not too deep, and no literal overflows the pool
    obtain ⟨-, -, hdeep⟩ | ⟨-, -, hpool⟩ := houtcome.error_cases
    · exact hdeep.elim
    · cases hpool

end Parse

/-! ### Annotations of every depth

For the other direction, one annotation for each depth, and a shortest text around it. -/

mutual

/-- No token of an annotation is a string. -/
theorem TypeName.text?_of_mem_kinds :
    (t : TypeName) → ∀ kind ∈ t.kinds, kind.text? = none
  | .named name => List.forall_mem_singleton.mpr rfl
  | .array element => by
    have := TypeName.text?_of_mem_kinds element
    simpa [TypeName.kinds, TokenKind.text?, or_imp, forall_and] using this
  | .tuple types => by
    have := forall_mem_elements (TypeName.text?_of_mem_kindsAll types) rfl
    simpa [TypeName.kinds, TokenKind.text?, or_imp, forall_and] using this

theorem TypeName.text?_of_mem_kindsAll :
    (ts : List TypeName) → ∀ part ∈ TypeName.kindsAll ts, ∀ kind ∈ part, kind.text? = none
  | [] => by simp [TypeName.kindsAll]
  | t :: ts => List.forall_mem_cons.mpr
      ⟨TypeName.text?_of_mem_kinds t, TypeName.text?_of_mem_kindsAll ts⟩

end

mutual

/-- Annotations have no places to forget. -/
theorem Stmt.annotations_unlocated : (s : Stmt) → s.unlocated.annotations = s.annotations
  | .declare .. => by simp [Stmt.unlocated, Stmt.annotations, List.flatMap_map, Binding.unlocated]
  | .function _ header body => by
    simp [Stmt.unlocated, Stmt.annotations, FunctionHeader.annotations, FunctionHeader.unlocated,
      Field.unlocated, Stmt.annotationsAll_unlocated body]
  | .struct .. => by
    simp [Stmt.unlocated, Stmt.annotations, StructDecl.unlocated, Field.unlocated]
  | .whileLoop _ _ body | .block _ body | .conditional _ _ body none => by
    simp [Stmt.unlocated, Stmt.annotations, Stmt.annotationsAll_unlocated body]
  | .conditional _ _ body (some alternate) => by
    simp [Stmt.unlocated, Stmt.annotations, Stmt.annotationsAll_unlocated body,
      Stmt.annotations_unlocated alternate]
  | .ret .. | .assign .. | .print .. | .expression .. => rfl

theorem Stmt.annotationsAll_unlocated : (ss : List Stmt) →
    Stmt.annotationsAll (Stmt.unlocatedAll ss) = Stmt.annotationsAll ss
  | [] => rfl
  | s :: ss => by
    simp only [Stmt.unlocatedAll, Stmt.annotationsAll, Stmt.annotations_unlocated s,
      Stmt.annotationsAll_unlocated ss]

end

/-- A rendered program has the annotations of the program it was rendered from. -/
theorem Program.annotations_unlocated (program : Program) :
    program.unlocated.annotations = program.annotations :=
  Stmt.annotationsAll_unlocated program.statements

/-- A name in as many brackets as asked for. -/
def TypeName.nested : Nat → TypeName
  | 0 => .named "i32"
  | n + 1 => .array (nested n)

/-- Each bracket is one level around the name. -/
theorem TypeName.depth_nested (n : Nat) : (nested n).depth = n + 1 := by
  induction n with
  | zero => rfl
  | succ n ih => rw [nested, depth, ih]

theorem TypeName.isWritable_nested (n : Nat) : (nested n).isWritable := by
  induction n with
  | zero => decide
  | succ n ih => exact ih

/-- Two brackets for each level and one token for the name. -/
theorem TypeName.length_kinds_nested (n : Nat) : (nested n).kinds.length = 2 * n + 1 := by
  induction n with
  | zero => rfl
  | succ n ih =>
    rw [nested, kinds, List.length_cons, List.length_append, ih, List.length_singleton]
    omega

/-- The declaration of a name with an annotation. -/
def Stmt.declaring (t : TypeName) : Stmt :=
  .declare default false [⟨"a", some t, none, default⟩] none

/-- A program with an annotation of a field, of a parameter, of a result and of a declared name. -/
def Program.annotated (t : TypeName) : Program :=
  ⟨[.struct default ⟨"S", [⟨"a", t, default⟩]⟩,
    .function default ⟨"f", [⟨"a", t, default⟩], some t, false⟩ [],
    .declaring t]⟩

section Annotated

open Parse
open TokenKind (braced commas announced)

variable {t : TypeName}

/-- A declaration without a value is read back at every level, since it needs none. -/
theorem isReadStmtAt_declaring (ht : t.isWritable) {deep : Prop} {levels : Nat} :
    IsReadStmtAt deep levels (.declaring t) := by
  have hname : isName "a" := by decide
  exact isReadStmtAt_declare (by simp) (by simp [Binding.isWritable, hname, ht]) (by simp)
    (by simp)

/-- Wherever annotations may stand, every one that can be written can. -/
theorem parse_annotated (ht : t.isWritable) (strings : StringPool) :
    ∃ parsed, parseProgram (Program.annotated t).render strings = (.ok parsed, strings) ∧
      parsed.unlocated = (Program.annotated t).unlocated := by
  have hname : isName "a" ∧ isName "f" ∧ isName "S" := by decide
  refine exists_parse_render ?_ ?_ ?_ strings
  · simp [Program.isWritable, Program.annotated, Stmt.allWritable, Stmt.isWritable,
      StructDecl.isWritable, FunctionHeader.isWritable, Field.isWritable, Stmt.declaring,
      Binding.isWritable, hname, ht]
  · simp only [Program.annotated, List.forall_mem_cons, List.not_mem_nil, false_implies,
      implies_true, and_true]
    refine ⟨isReadStmtAt_struct ?_, isReadStmtAt_function ?_ (by simp) ?_,
      isReadStmtAt_declaring ht⟩
    · simp [StructDecl.isWritable, Field.isWritable, hname, ht]
    · simp [FunctionHeader.isWritable, Field.isWritable, hname, ht]
    · simp [Stmt.kindsAll, maxNesting]
  · -- all tokens but those of the annotations are fixed
    have hnone : ∀ kind ∈ (Program.annotated t).kinds, kind.text? = none := by
      simpa [Program.annotated, Program.kinds, Stmt.kindsAll, Stmt.kinds, Stmt.declaring,
        StructDecl.kinds, FunctionHeader.kinds, FunctionHeader.signature, Field.kinds,
        Binding.kinds, TokenKind.text?, braced, commas, announced, or_imp, forall_and]
        using t.text?_of_mem_kinds
    exact List.filterMap_eq_nil_iff.mpr hnone

/-- Of all texts with an annotation, a declaration of one name has the fewest tokens. -/
theorem parse_declaring (ht : t.isWritable) (strings : StringPool) :
    ∃ parsed, parseProgram (Program.render ⟨[.declaring t]⟩) strings = (.ok parsed, strings) ∧
      parsed.annotations = [t] ∧
      (lexemes (Program.render ⟨[.declaring t]⟩)).length = t.kinds.length + 5 := by
  have hname : isName "a" := by decide
  have hwritable : Program.isWritable ⟨[.declaring t]⟩ := by
    simp [Program.isWritable, Stmt.allWritable, Stmt.isWritable, Stmt.declaring,
      Binding.isWritable, hname, ht]
  have hkinds : Program.kinds ⟨[.declaring t]⟩ =
      .kwLet :: .identifier "a" :: .colon :: (t.kinds ++ [.semicolon]) := by
    simp [Program.kinds, Stmt.kindsAll, Stmt.kinds, Stmt.declaring, Binding.kinds, commas,
      announced]
  have htexts : Program.texts ⟨[.declaring t]⟩ = [] := by
    rw [Program.texts, hkinds]
    refine List.filterMap_eq_nil_iff.mpr ?_
    simpa [TokenKind.text?, or_imp, forall_and] using t.text?_of_mem_kinds
  have hread : ∀ s ∈ [Stmt.declaring t], IsReadStmtAt False maxNesting s :=
    List.forall_mem_singleton.mpr (isReadStmtAt_declaring ht)
  obtain ⟨parsed, hparse, hparsed⟩ := exists_parse_render hwritable hread htexts strings
  refine ⟨parsed, hparse, ?_, ?_⟩
  · rw [← parsed.annotations_unlocated, hparsed, Program.annotations_unlocated]
    rfl
  · have hlength := congrArg List.length (Program.isWritten_render hwritable)
    rwa [List.length_map, List.length_map, hkinds, List.length_append, List.length_cons,
      List.length_cons, List.length_cons, List.length_append] at hlength

end Annotated

namespace Parse

/-- **No limit bounds the depth of annotations.** The text alone does: a level costs two tokens, so
what `2 * n + 6` tokens hold, with the one at the end of the text, is at most `n + 1` deep, and that
depth is reached. It can be had in every place where an annotation may stand. -/
theorem isGreatest_annotation_depth (n : Nat) :
    IsGreatest {depth | ∃ text strings program strings', (lexemes text).length ≤ 2 * n + 6 ∧
      parseProgram text strings = (.ok program, strings') ∧
      ∃ t ∈ program.annotations, t.depth = depth} (n + 1) ∧
    ∃ t : TypeName, t.depth = n + 1 ∧ ∀ strings, ∃ program,
      parseProgram (Program.annotated t).render strings = (.ok program, strings) ∧
      program.unlocated = (Program.annotated t).unlocated := by
  have hwritable := TypeName.isWritable_nested n
  have hdepth := TypeName.depth_nested n
  refine ⟨⟨?_, ?_⟩, .nested n, hdepth, parse_annotated hwritable⟩
  · obtain ⟨program, hparse, hannotations, hlength⟩ :=
      parse_declaring hwritable (StringPool.empty 0)
    rw [TypeName.length_kinds_nested] at hlength
    refine ⟨_, _, program, _, hlength.le, hparse, .nested n, ?_, hdepth⟩
    rw [hannotations]
    exact List.mem_singleton_self _
  · rintro depth ⟨text, strings, program, strings', hlength, hparse, t, ht, rfl⟩
    -- every level of an annotation is paid for by two tokens
    have hpaid := depth_le_of_parse hparse ht
    omega

/-- `let a : [ [ … i32 … ] ] ;` with more brackets than there are levels. -/
theorem exists_annotation_deeper_than_maxNesting :
    ∃ program, parseProgram (Program.render ⟨[.declaring (.nested 299)]⟩) (StringPool.empty 0) =
        (.ok program, StringPool.empty 0) ∧
      ∃ t ∈ program.annotations, t.depth = 300 ∧ maxNesting < t.depth := by
  have hdepth := TypeName.depth_nested 299
  obtain ⟨program, hparse, hannotations, -⟩ :=
    parse_declaring (TypeName.isWritable_nested 299) (StringPool.empty 0)
  refine ⟨program, hparse, .nested 299, ?_, hdepth, ?_⟩
  · rw [hannotations]
    exact List.mem_singleton_self _
  · rw [hdepth]
    decide

end Parse

end WasmCompiler
