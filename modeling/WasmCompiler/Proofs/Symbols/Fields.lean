import WasmCompiler.Proofs.Effects
import WasmCompiler.Proofs.Symbols.Registration

/-!
# The fields of declared structs

A struct is registered with the fields that its declaration lists, in their order. No two of them
share a name, so that a name finds the field that it is written at, and each is one cell wide
(`SoundFields`). This needs no assumption on the table before: every struct of a program is checked
when it is declared, and keeps its entry afterwards.

`resolveFields_sound` is the loop over the fields, `declareStruct_registers` one declaration, and
`struct?_of_declare` the whole program.
-/

namespace WasmCompiler

/-- Fields that a name tells apart, each of them one cell wide. -/
structure SoundFields (fields : List (String × DataType)) : Prop where
  names : (fields.map (·.1)).Nodup
  cells : ∀ field ∈ fields, field.2.fitsCell

theorem soundFields_nil : SoundFields [] :=
  ⟨.nil, by simp⟩

/-- One more field, with a new name. -/
theorem SoundFields.snoc {fields : List (String × DataType)} (h : SoundFields fields)
    {name : String} {type : DataType} (hname : name ∉ fields.map (·.1)) (hfits : type.fitsCell) :
    SoundFields (fields ++ [(name, type)]) := by
  refine ⟨?_, List.forall_mem_append.mpr ⟨h.cells, by simpa using hfits⟩⟩
  rw [List.map_append, List.nodup_append]
  refine ⟨h.names, by simp, fun a ha b hb => ?_⟩
  obtain rfl := List.mem_singleton.mp hb
  rintro rfl
  exact hname ha

/-- The name of a field finds it, if no other field has the name. -/
theorem DataType.lookupField_of_nodup {fields : List (String × DataType)}
    (h : (fields.map (·.1)).Nodup) {i : Nat} {name : String} {type : DataType}
    (hfield : fields[i]? = some (name, type)) : lookupField name fields = some (i, type) := by
  induction fields generalizing i with
  | nil => cases hfield
  | cons field fields ih =>
    obtain ⟨n, t⟩ := field
    obtain ⟨hnew, hrest⟩ := List.nodup_cons.mp h
    rw [lookupField]
    cases i with
    | zero =>
      obtain ⟨rfl, rfl⟩ := Prod.mk.inj (Option.some.inj hfield)
      exact if_pos rfl
    | succ i =>
      rw [List.getElem?_cons_succ] at hfield
      -- a later field has another name than the first
      have hne : n ≠ name := by
        rintro rfl
        exact hnew (List.mem_map.mpr ⟨_, List.mem_of_getElem? hfield, rfl⟩)
      rw [if_neg hne, ih hrest hfield]
      rfl

namespace SymbolTable

variable {t t' g : SymbolTable}

/-- Fields are resolved in order, each once it is known to have a new name and to fit. -/
theorem resolveFields_sound {struct : String} {fs : List Field}
    {done fields : List (String × DataType)} (h : t.resolveFields struct done fs = .ok fields)
    (hdone : SoundFields done) :
    SoundFields fields ∧ fields.map (·.1) = done.map (·.1) ++ fs.map (·.name) ∧
      ∀ field ∈ fields, field ∈ done ∨ ∃ f ∈ fs, t.resolve f.location f.type = .ok field.2 := by
  induction fs generalizing done with
  | nil =>
    obtain rfl := Except.ok.inj h
    exact ⟨hdone, by simp, fun field hfield => .inl hfield⟩
  | cons f fs ih =>
    rw [resolveFields] at h
    split at h
    · cases h
    rename_i hnew
    obtain ⟨type, htype, h⟩ := Except.bind_eq_ok_iff.mp h
    dsimp only at h
    split at h
    · rename_i hfits
      have hname : f.name ∉ done.map (·.1) := by simpa using hnew
      obtain ⟨hsound, hnames, hresolved⟩ := ih h (hdone.snoc hname hfits)
      refine ⟨hsound, by simpa using hnames, fun field hfield => ?_⟩
      -- a field is one of those done before, this one or a later one
      rcases hresolved field hfield with hmem | ⟨f', hf', hresolve⟩
      · rcases List.mem_append.mp hmem with hmem | hmem
        · exact .inl hmem
        · obtain rfl := List.mem_singleton.mp hmem
          exact .inr ⟨f, List.mem_cons_self, htype⟩
      · exact .inr ⟨f', List.mem_cons_of_mem _ hf', hresolve⟩
    · cases h

/-- A struct that is declared is registered with its fields, and no other entry changes. -/
theorem declareStruct_registers {decl : StructDecl} {location : Location}
    (h : t.declareStruct decl location = .ok t') :
    ∃ fields, t.resolveFields decl.name [] decl.fields = .ok fields ∧
      t' = { t with structs := (decl.name, fields) :: t.structs } ∧
      t'.struct? decl.name = some fields ∧
      ∀ name fields, t.struct? name = some fields → t'.struct? name = some fields := by
  obtain ⟨fields, hfields, htaken, rfl⟩ := declareStruct_eq_ok_iff.mp h
  obtain ⟨hnew, -⟩ := isTaken_eq_false_iff.mp htaken
  refine ⟨fields, hfields, rfl, by simp [struct?], fun name others hothers => ?_⟩
  exact lookup_cons_of_mem hothers fun h => hnew (List.mem_append_right _ h)

/-- Entries that are there stay, as a second struct of a name is refused. -/
theorem declareStructs_registers {stmts : List Stmt} {u : Unit}
    (h : stmts.forM declareIfStruct t = .ok u t') :
    (∀ name fields, t.struct? name = some fields → t'.struct? name = some fields) ∧
      ∀ location decl, Stmt.struct location decl ∈ stmts →
        ∃ fields, t'.struct? decl.name = some fields ∧ SoundFields fields ∧
          fields.map (·.1) = decl.fields.map (·.name) := by
  induction stmts generalizing t with
  | nil =>
    obtain ⟨-, rfl⟩ := EStateM.pure_eq_ok_iff.mp h
    exact ⟨fun _ _ h => h, by simp⟩
  | cons stmt stmts ih =>
    obtain ⟨_, t₁, hstmt, hstmts⟩ := EStateM.bind_eq_ok_iff.mp h
    obtain ⟨hkept, hfound⟩ := ih hstmts
    cases stmt with
    | struct location decl =>
      obtain ⟨fields, hfields, -, hstruct, hkept₁⟩ :=
        declareStruct_registers (declareIfStruct_struct_iff.mp hstmt)
      refine ⟨fun name fs hname => hkept name fs (hkept₁ name fs hname), ?_⟩
      intro location' decl' hmem
      rcases List.mem_cons.mp hmem with heq | hmem
      · obtain ⟨rfl, rfl⟩ := Stmt.struct.inj heq
        obtain ⟨hsound, hnames, -⟩ := resolveFields_sound hfields soundFields_nil
        exact ⟨fields, hkept _ _ hstruct, hsound, hnames⟩
      · exact hfound location' decl' hmem
    | _ =>
      obtain ⟨-, rfl⟩ := EStateM.pure_eq_ok_iff.mp hstmt
      exact ⟨hkept, fun location decl hmem => hfound location decl (by simpa using hmem)⟩

/-- Declaring functions leaves the structs as they are. -/
theorem structs_of_declareFunctions {stmts : List Stmt} {u : Unit}
    (h : stmts.forM declareIfFunction t = .ok u t') : t'.structs = t.structs := by
  obtain ⟨entries, -, -, -, rfl⟩ := declareFunctions_iff.mp h
  rfl

/-- Every struct of a program that was declared has the fields of its declaration. -/
theorem struct?_of_declare {program : Program} {u : Unit} (h : declare program t = .ok u g)
    {location : Location} {decl : StructDecl}
    (hmem : Stmt.struct location decl ∈ program.statements) :
    ∃ fields, g.struct? decl.name = some fields ∧ SoundFields fields ∧
      fields.map (·.1) = decl.fields.map (·.name) := by
  unfold declare at h
  obtain ⟨_, t₁, hstructs, hfunctions⟩ := EStateM.bind_eq_ok_iff.mp h
  obtain ⟨fields, hstruct, hsound, hnames⟩ :=
    (declareStructs_registers hstructs).2 location decl hmem
  refine ⟨fields, ?_, hsound, hnames⟩
  rw [struct?, structs_of_declareFunctions hfunctions]
  exact hstruct

end SymbolTable

end WasmCompiler
