import WasmCompiler.Compile
import WasmCompiler.Proofs.Symbols.Declared

/-!
# Registering functions

When the functions of a program are registered its structs are known already, so what becomes of a
function does not depend on the functions before it, as long as no name comes twice.
`declareFunctions_iff` says when all functions of a list of statements can be registered, in any
table, and what the table knows then.

So the functions of a program can be registered in any order with the same result for each name,
which is what reordering them relies on.
-/

namespace WasmCompiler

namespace SymbolTable

variable {t t' : SymbolTable}

/-! ### Annotations are read with the structs

Nothing else of a table is asked for. -/

mutual

/-- An annotation asks a table for structs only. -/
theorem resolve_congr (h : t'.structs = t.structs) (location : Location) :
    (written : TypeName) → t'.resolve location written = t.resolve location written
  | .named name => by
    simp only [resolve, struct?, h]
  | .array element => by
    simp only [resolve, resolve_congr h location element]
  | .tuple elements => by
    simp only [resolve, resolveAll_congr h location elements]

theorem resolveAll_congr (h : t'.structs = t.structs) (location : Location) :
    (annotations : List TypeName) →
      t'.resolveAll location annotations = t.resolveAll location annotations
  | [] => rfl
  | a :: as => by
    simp only [resolveAll, resolve_congr h location a, resolveAll_congr h location as]

end

theorem resolveParams_congr (h : t'.structs = t.structs) (fields : List Field) :
    t'.resolveParams fields = t.resolveParams fields := by
  induction fields with
  | nil => rfl
  | cons f fs ih => simp only [resolveParams, resolve_congr h, ih]

/-- A header stands for the same signature if the structs are the same. -/
theorem resolveSignature_congr (h : t'.structs = t.structs) (header : FunctionHeader)
    (location : Location) : t'.resolveSignature header location =
      t.resolveSignature header location := by
  unfold resolveSignature
  rw [resolveParams_congr h]
  cases header.returnType with
  | none => rfl
  | some written => simp only [resolve_congr h]

/-! ### Functions

The signature of a function is an equation in the structs of the table, and the order of the entries
is the reverse of the order of the text. -/

/-- The functions among some statements. -/
def headers (stmts : List Stmt) : List (Location × FunctionHeader) :=
  stmts.filterMap fun
    | .function location header _ => some (location, header)
    | _ => none

/-- What a table will know of a function if its name is free. -/
def entry (t : SymbolTable) (f : Location × FunctionHeader) :
    Except SemanticError (String × Signature) := do
  let signature ← t.resolveSignature f.2 f.1
  if f.2.exported && t.exportsMemory && f.2.name = memoryName then
    throw (.duplicate f.2.name f.1)
  .ok (f.2.name, signature)

/-- What a table will know of a function depends on its structs and on whether the memory is
exported. -/
theorem entry_congr (h : t'.structs = t.structs) (hexports : t'.exportsMemory = t.exportsMemory)
    (f : Location × FunctionHeader) : t'.entry f = t.entry f := by
  rw [entry, entry, resolveSignature_congr h, hexports]

/-- The entry has the name of the function, and a type for each parameter. -/
theorem entry_eq_ok {f : Location × FunctionHeader} {e : String × Signature}
    (h : t.entry f = .ok e) : e.1 = f.2.name ∧ e.2.params.length = f.2.params.length := by
  obtain ⟨signature, hsignature, h⟩ := Except.bind_eq_ok_iff.mp h
  split at h
  · cases h
  · obtain rfl := Except.ok.inj h
    exact ⟨rfl, length_resolveSignature hsignature⟩

/-- The table with more functions. -/
def withFunctions (t : SymbolTable) (entries : List (String × Signature)) : SymbolTable :=
  { t with functions := entries ++ t.functions }

/-- Functions that are registered do not change what becomes of the next. -/
theorem entry_withFunctions (entries : List (String × Signature)) :
    (t.withFunctions entries).entry = t.entry :=
  funext fun f => entry_congr (show (t.withFunctions entries).structs = t.structs from rfl) rfl f

/-- A function gets its entry if the name is free. -/
theorem defineFunction_eq_ok_iff {name : String} {signature : Signature} {location : Location} :
    t.defineFunction name signature location = .ok t' ↔
      t.isTaken name = false ∧ t' = t.withFunctions [(name, signature)] := by
  unfold defineFunction
  cases t.isTaken name with
  | true => simp
  | false =>
    simp only [Bool.false_eq_true, if_false, Except.ok.injEq, true_and]
    exact eq_comm

/-- Declaring a function is making its entry, if the header can be read. -/
theorem declareFunction_eq_ok_iff {header : FunctionHeader} {location : Location} :
    t.declareFunction header location = .ok t' ↔
      ∃ e, t.entry (location, header) = .ok e ∧ t.isTaken e.1 = false ∧
        t' = t.withFunctions [e] := by
  have hsplit : t.declareFunction header location =
      t.entry (location, header) >>= fun e => t.defineFunction e.1 e.2 location := by
    unfold declareFunction entry
    cases t.resolveSignature header location with
    | error e => rfl
    | ok signature =>
      dsimp only [bind, Except.bind]
      split <;> rfl
  rw [hsplit, Except.bind_eq_ok_iff]
  exact exists_congr fun e => and_congr_right fun _ => defineFunction_eq_ok_iff

/-- A name stays free unless it is that of the new function. -/
theorem isTaken_withFunctions {e : String × Signature} {name : String} :
    (t.withFunctions [e]).isTaken name = false ↔ name ≠ e.1 ∧ t.isTaken name = false := by
  rw [isTaken_eq_false_iff, isTaken_eq_false_iff]
  simp [names, withFunctions, and_assoc]

/-- Each element of a list that was gone through has its result. -/
theorem exists_of_mapM_eq_ok {α β ε : Type} {f : α → Except ε β} {xs : List α} {ys : List β}
    (h : xs.mapM f = .ok ys) {x : α} (hx : x ∈ xs) : ∃ y ∈ ys, f x = .ok y := by
  have hpairs := mapM_eq_ok h
  clear h
  induction hpairs with
  | nil => cases hx
  | cons hfirst _ ih =>
    rcases List.mem_cons.mp hx with rfl | hx
    · exact ⟨_, List.mem_cons_self, hfirst⟩
    · obtain ⟨y, hy, hfound⟩ := ih hx
      exact ⟨y, List.mem_cons_of_mem _ hy, hfound⟩

/-- Functions can be registered if each has a signature that can be read, and if their names are
free and all different. -/
theorem declareFunctions_iff {stmts : List Stmt} :
    stmts.forM declareIfFunction t = .ok () t' ↔
      ∃ entries, (headers stmts).mapM t.entry = .ok entries ∧ (entries.map (·.1)).Nodup ∧
        (∀ e ∈ entries, t.isTaken e.1 = false) ∧ t' = t.withFunctions entries.reverse := by
  induction stmts generalizing t with
  | nil =>
    constructor
    · intro h
      obtain ⟨-, rfl⟩ := EStateM.pure_eq_ok_iff.mp h
      exact ⟨[], rfl, .nil, by simp, rfl⟩
    · rintro ⟨entries, hentries, -, -, rfl⟩
      obtain rfl := Except.ok.inj hentries
      rfl
  | cons stmt stmts ih =>
    have hsteps : (stmt :: stmts).forM declareIfFunction t = .ok () t' ↔
        ∃ u t₁, declareIfFunction stmt t = .ok u t₁ ∧
          stmts.forM declareIfFunction t₁ = .ok () t' := EStateM.bind_eq_ok_iff
    rw [hsteps]
    cases stmt with
    | function location header body =>
      show _ ↔ ∃ entries, ((location, header) :: headers stmts).mapM t.entry = _ ∧ _
      simp only [List.mapM_cons, Except.bind_eq_ok_iff]
      constructor
      · rintro ⟨_, t₁, hstmt, hstmts⟩
        rw [declareIfFunction] at hstmt
        obtain ⟨e, he, htaken, rfl⟩ := declareFunction_eq_ok_iff.mp (update_eq_ok_iff.mp hstmt)
        obtain ⟨entries, hentries, hnodup, hfree, rfl⟩ := ih.mp hstmts
        -- the names after it are free in the table that has its entry already
        have hfree' : ∀ e' ∈ entries, e'.1 ≠ e.1 ∧ t.isTaken e'.1 = false := fun e' he' =>
          isTaken_withFunctions.mp (hfree e' he')
        refine ⟨e :: entries, ⟨e, he, entries, ?_, rfl⟩, ?_, ?_, ?_⟩
        · rwa [← entry_withFunctions [e]]
        · rw [List.map_cons, List.nodup_cons]
          refine ⟨fun hmem => ?_, hnodup⟩
          obtain ⟨e', he', heq⟩ := List.mem_map.mp hmem
          exact (hfree' e' he').1 heq
        · exact List.forall_mem_cons.mpr ⟨htaken, fun e' he' => (hfree' e' he').2⟩
        · simp [withFunctions]
      · rintro ⟨_, ⟨e, he, entries, hentries, hcons⟩, hnodup, hfree, rfl⟩
        obtain rfl := Except.ok.inj hcons
        rw [List.map_cons, List.nodup_cons] at hnodup
        rw [List.forall_mem_cons] at hfree
        refine ⟨(), t.withFunctions [e], ?_, ih.mpr ⟨entries, ?_, hnodup.2, fun e' he' => ?_, ?_⟩⟩
        · rw [declareIfFunction]
          exact update_eq_ok_iff.mpr (declareFunction_eq_ok_iff.mpr ⟨e, he, hfree.1, rfl⟩)
        · rwa [entry_withFunctions]
        · refine isTaken_withFunctions.mpr ⟨fun heq => hnodup.1 ?_, hfree.2 e' he'⟩
          rw [← heq]
          exact List.mem_map_of_mem he'
        · simp [withFunctions]
    | _ =>
      show _ ↔ ∃ entries, (headers stmts).mapM t.entry = _ ∧ _
      rw [← ih]
      constructor
      · rintro ⟨_, t₁, hstmt, hstmts⟩
        obtain ⟨-, rfl⟩ := EStateM.pure_eq_ok_iff.mp hstmt
        exact hstmts
      · intro hstmts
        exact ⟨(), t, rfl, hstmts⟩

/-- A function among the statements is one of the headers. -/
theorem headers_mem {stmts : List Stmt} {location : Location} {header : FunctionHeader}
    {body : List Stmt} (h : Stmt.function location header body ∈ stmts) :
    (location, header) ∈ headers stmts :=
  List.mem_filterMap.mpr ⟨_, h, rfl⟩

/-- An entry is found by its name if no other has it. -/
theorem lookup_of_mem_of_nodup {β : Type} {l : List (String × β)} {e : String × β}
    (hnodup : (l.map (·.1)).Nodup) (h : e ∈ l) : l.lookup e.1 = some e.2 := by
  induction l with
  | nil => cases h
  | cons first l ih =>
    rw [List.map_cons, List.nodup_cons] at hnodup
    rcases List.mem_cons.mp h with rfl | h
    · rw [List.lookup_cons, beq_self_eq_true]
    · have hne : e.1 ≠ first.1 := by
        intro heq
        exact hnodup.1 (heq ▸ List.mem_map_of_mem h)
      rw [List.lookup_cons, beq_false_of_ne hne]
      exact ih hnodup.2 h

/-- A function that was registered has a type for each of its parameters. -/
theorem signature_of_declareFunctions {stmts : List Stmt}
    (h : stmts.forM declareIfFunction t = .ok () t') {location : Location}
    {header : FunctionHeader} {body : List Stmt}
    (hmem : Stmt.function location header body ∈ stmts) :
    ∃ signature, t'.function? header.name = some signature ∧
      signature.params.length = header.params.length := by
  obtain ⟨entries, hentries, hnodup, -, rfl⟩ := declareFunctions_iff.mp h
  obtain ⟨e, he, hentry⟩ := exists_of_mapM_eq_ok hentries (headers_mem hmem)
  obtain ⟨hname, hlength⟩ := entry_eq_ok hentry
  refine ⟨e.2, ?_, hlength⟩
  -- the names are different, so looking one up finds its own entry
  have hlookup : entries.reverse.lookup e.1 = some e.2 := by
    refine lookup_of_mem_of_nodup ?_ (List.mem_reverse.mpr he)
    rw [List.map_reverse]
    exact List.pairwise_reverse.mpr (hnodup.imp fun h => h.symm)
  rw [function?, withFunctions, List.lookup_append, ← hname, hlookup]
  rfl

/-! ### Fresh tables

Compiling begins in such a table. -/

/-- A table that knows at most string literals. -/
structure Fresh (t : SymbolTable) : Prop where
  scopes : t.scopes = []
  functions : t.functions = []
  structs : t.structs = []
  nextSlot : t.nextSlot = 0
  declared : t.declared = []

/-- After parsing a table knows the literals of the text, and nothing else. -/
theorem fresh_parse (options : CompileOptions) (source : String) :
    (options.symbols.parse source).2.Fresh :=
  ⟨rfl, rfl, rfl, rfl, rfl⟩

/-- What was parsed is declared in a fresh table. -/
theorem fresh_of_parse {options : CompileOptions} {source : String} {program : Program}
    (h : options.symbols.parse source = (.ok program, t)) : t.Fresh := by
  have hfresh := fresh_parse options source
  rwa [h] at hfresh

/-- Fresh tables differ in their strings, and in whether the memory is exported. -/
theorem Fresh.eq (ht : t.Fresh) (ht' : t'.Fresh) (hexports : t'.exportsMemory = t.exportsMemory)
    (hstrings : t'.strings = t.strings) : t' = t := by
  obtain ⟨scopes, functions, structs, strings, nextSlot, declared, exportsMemory⟩ := t
  obtain ⟨scopes', functions', structs', strings', nextSlot', declared', exportsMemory'⟩ := t'
  obtain ⟨rfl, rfl, rfl, rfl, rfl⟩ := ht
  obtain ⟨rfl, rfl, rfl, rfl, rfl⟩ := ht'
  obtain rfl := hexports
  obtain rfl := hstrings
  rfl

/-- In a fresh table all of a program is registered and nothing else. -/
theorem Fresh.declared_of_declare {program : Program} (ht : t.Fresh)
    (h : declare program t = .ok () t') : Declared program t t' :=
  WasmCompiler.declared_of_declare h ht.functions ht.structs ht.scopes

end SymbolTable

end WasmCompiler
