import WasmCompiler.Proofs.Lowering.Adequacy

/-!
# Scratch locals

The code of an expression reads variables and keeps intermediate values in scratch locals. A local
that is handed out has the number after those handed out before, so no two hand-outs share one.
What can be seen of this in the code: it mentions slots of variables and the locals handed out for
it, and each of the latter is written in exactly one place (`Uses`).

`Runs x s post` is what is shown of every lowering function: if it succeeds then `post` holds, and
if it fails then not because of the frame of the function.

`runs_lowerExpr` is the induction over expressions. It needs no types, so it also holds where
lowering fails in the end.
-/

namespace WasmCompiler

open Wasm (Instr ValueType)

/-! ### Locals in code

The locals that code mentions, and the claim that each scratch local is its own. -/

namespace Wasm.Instr

mutual

/-- The locals that an instruction mentions, in order, each with whether it is written. -/
def mentions : Instr → List (Nat × Bool)
  | .block _ body | .loop _ body | .branch _ body none => mentionsAll body
  | .branch _ body (some alternate) => mentionsAll body ++ mentionsAll alternate
  | .localGet index => [(index, false)]
  | .localSet index | .localTee index => [(index, true)]
  | _ => []

/-- The locals that code mentions. -/
def mentionsAll : List Instr → List (Nat × Bool)
  | [] => []
  | i :: is => mentions i ++ mentionsAll is

end

/-- The numbers of the locals that code mentions. -/
def locals (code : List Instr) : List Nat :=
  (mentionsAll code).map (·.1)

/-- The numbers of the locals that code writes, once for each place. -/
def writes (code : List Instr) : List Nat :=
  ((mentionsAll code).filter (·.2)).map (·.1)

@[simp] theorem mentionsAll_append (code rest : List Instr) :
    mentionsAll (code ++ rest) = mentionsAll code ++ mentionsAll rest := by
  induction code with
  | nil => rfl
  | cons i is ih => rw [List.cons_append, mentionsAll, mentionsAll, ih, List.append_assoc]

theorem locals_append (code rest : List Instr) :
    locals (code ++ rest) = locals code ++ locals rest := by
  simp [locals]

theorem writes_append (code rest : List Instr) :
    writes (code ++ rest) = writes code ++ writes rest := by
  simp [writes]

end Wasm.Instr

namespace Lowering

theorem mentionsAll_getSlots (slot width : Nat) :
    Instr.mentionsAll (getSlots slot width) =
      (List.range width).map fun k => (slot + k, false) := by
  rw [getSlots]
  induction List.range width with
  | nil => rfl
  | cons k ks ih => rw [List.map_cons, Instr.mentionsAll, ih]; rfl

theorem mentionsAll_setSlots (slot width : Nat) :
    Instr.mentionsAll (setSlots slot width) =
      (List.range width).reverse.map fun k => (slot + k, true) := by
  rw [setSlots]
  induction (List.range width).reverse with
  | nil => rfl
  | cons k ks ih => rw [List.map_cons, Instr.mentionsAll, ih]; rfl

/-- Code uses locals that have names, and scratch locals from `s` to `s'`. Those it writes in one
place each. -/
structure Uses (base : Nat) (named : Nat → Prop) (s s' : List ValueType) (code : List Instr) :
    Prop where
  grows : s <+: s'
  locals : ∀ i ∈ Instr.locals code,
    named i ∨ base + s.length ≤ i ∧ i < base + s'.length
  writes : ((Instr.writes code).filter (base ≤ ·)).Perm
    (List.range' (base + s.length) (s'.length - s.length))

namespace Uses

variable {base : Nat} {named : Nat → Prop} {s s' s'' : List ValueType} {code rest : List Instr}

/-- Code without locals. -/
theorem quiet (h : Instr.mentionsAll code = []) : Uses base named s s code where
  grows := List.prefix_refl _
  locals := by
    rw [Instr.locals, h]
    exact nofun
  writes := by
    rw [Instr.writes, h, Nat.sub_self]
    exact .refl _

/-- Only what is mentioned matters. -/
theorem of_eq (h : Uses base named s s' code)
    (heq : Instr.mentionsAll rest = Instr.mentionsAll code) : Uses base named s s' rest := by
  refine ⟨h.grows, ?_, ?_⟩
  · rw [Instr.locals, heq]
    exact h.locals
  · rw [Instr.writes, heq]
    exact h.writes

theorem mono {named' : Nat → Prop} (h : Uses base named s s' code)
    (hnamed : ∀ i, named i → named' i) : Uses base named' s s' code :=
  ⟨h.grows, fun i hi => (h.locals i hi).imp_left (hnamed i), h.writes⟩

/-- The locals that two pieces of code are handed are apart, so neither is written in both. -/
theorem append (h : Uses base named s s' code) (h' : Uses base named s' s'' rest) :
    Uses base named s s'' (code ++ rest) := by
  have hle : s.length ≤ s'.length := h.grows.length_le
  have hle' : s'.length ≤ s''.length := h'.grows.length_le
  refine ⟨h.grows.trans h'.grows, ?_, ?_⟩
  · intro i hi
    rw [Instr.locals_append, List.mem_append] at hi
    rcases hi with hi | hi
    · rcases h.locals i hi with hname | hscratch
      · exact .inl hname
      · exact .inr (by omega)
    · rcases h'.locals i hi with hname | hscratch
      · exact .inl hname
      · exact .inr (by omega)
  · -- the two runs of scratch locals lie one after the other
    have hwindows : List.range' (base + s.length) (s''.length - s.length) =
        List.range' (base + s.length) (s'.length - s.length) ++
          List.range' (base + s'.length) (s''.length - s'.length) := by
      have hend : base + s'.length = base + s.length + 1 * (s'.length - s.length) := by omega
      have hsum : s''.length - s.length =
          s'.length - s.length + (s''.length - s'.length) := by omega
      rw [hsum, hend, List.range'_append]
    rw [Instr.writes_append, List.filter_append, hwindows]
    exact h.writes.append h'.writes

/-- Reading slots that have names writes nothing. -/
theorem getSlots {slot width : Nat} (h : ∀ k < width, named (slot + k)) :
    Uses base named s s (getSlots slot width) := by
  refine ⟨List.prefix_refl _, ?_, ?_⟩
  · intro i hi
    rw [Instr.locals, mentionsAll_getSlots, List.map_map] at hi
    obtain ⟨k, hk, rfl⟩ := List.mem_map.mp hi
    exact .inl (h k (List.mem_range.mp hk))
  · rw [Instr.writes, mentionsAll_getSlots, Nat.sub_self]
    simp

/-- The values of a tuple go into new locals, and some of them are read again. -/
theorem spill {types : List ValueType} {start width : Nat} (h : start + width ≤ types.length) :
    Uses base named s (s ++ types) (setSlots (base + s.length) types.length ++
      Lowering.getSlots (base + s.length + start) width) := by
  have hmentions := congrArg₂ (· ++ ·) (mentionsAll_setSlots (base + s.length) types.length)
    (mentionsAll_getSlots (base + s.length + start) width)
  rw [← Instr.mentionsAll_append] at hmentions
  refine ⟨List.prefix_append _ _, ?_, ?_⟩
  · intro i hi
    right
    rw [Instr.locals, hmentions, List.map_append, List.mem_append, List.map_map,
      List.map_map] at hi
    rw [List.length_append]
    rcases hi with hi | hi
    · obtain ⟨k, hk, rfl⟩ := List.mem_map.mp hi
      have hk : k < types.length := List.mem_range.mp (List.mem_reverse.mp hk)
      show base + s.length ≤ base + s.length + k ∧ base + s.length + k < _
      omega
    · obtain ⟨k, hk, rfl⟩ := List.mem_map.mp hi
      have hk : k < width := List.mem_range.mp hk
      show base + s.length ≤ base + s.length + start + k ∧ base + s.length + start + k < _
      omega
  · have hwrites : Instr.writes (setSlots (base + s.length) types.length ++
        Lowering.getSlots (base + s.length + start) width) =
        (List.range types.length).reverse.map (base + s.length + ·) := by
      rw [Instr.writes, hmentions]
      simp [List.filter_map, Function.comp_def]
    -- all of them are scratch locals, written from the last one down to the first
    have hscratch : ((List.range types.length).reverse.map (base + s.length + ·)).filter
        (base ≤ ·) = (List.range types.length).reverse.map (base + s.length + ·) := by
      refine List.filter_eq_self.mpr fun i hi => ?_
      obtain ⟨k, -, rfl⟩ := List.mem_map.mp hi
      exact decide_eq_true (by omega)
    rw [hwrites, hscratch, List.length_append, Nat.add_sub_cancel_left, List.range'_eq_map_range]
    exact (List.reverse_perm _).map _

/-- The local of a block is handed out before the locals of the items, and it is read between
them. -/
theorem array {header tail : List Instr}
    (hheader : Instr.mentionsAll header = [(base + s.length, true)])
    (htail : Instr.mentionsAll tail = [(base + s.length, false)])
    (h : Uses base (fun i => named i ∨ i = base + s.length) (s ++ [.i32]) s' code) :
    Uses base named s s' (header ++ code ++ tail) := by
  have hgrows : s <+: s' := (List.prefix_append s [.i32]).trans h.grows
  have hlt : s.length + 1 ≤ s'.length := by
    have hle := h.grows.length_le
    rwa [List.length_append] at hle
  refine ⟨hgrows, ?_, ?_⟩
  · intro i hi
    have hlocals : Instr.locals (header ++ code ++ tail) =
        (base + s.length) :: Instr.locals code ++ [base + s.length] := by
      simp [Instr.locals, hheader, htail]
    -- the local of the block is the first one this array takes
    have hown (hi : i = base + s.length) : base + s.length ≤ i ∧ i < base + s'.length := by omega
    rw [hlocals, List.mem_append, List.mem_cons, List.mem_singleton] at hi
    rcases hi with (hi | hi) | hi
    · exact .inr (hown hi)
    · rcases h.locals i hi with (hname | hi) | hscratch
      · exact .inl hname
      · exact .inr (hown hi)
      · rw [List.length_append, List.length_singleton] at hscratch
        exact .inr (by omega)
    · exact .inr (hown hi)
  · -- the first scratch local is that of the block, and the items have the others
    have hwindow : List.range' (base + s.length) (s'.length - s.length) =
        (base + s.length) :: List.range' (base + (s ++ [ValueType.i32]).length)
          (s'.length - (s ++ [ValueType.i32]).length) := by
      have hcount : s'.length - s.length = s'.length - (s.length + 1) + 1 := by omega
      rw [List.length_append, List.length_singleton, hcount, List.range'_succ, Nat.add_assoc]
    have hwrites : Instr.writes (header ++ code ++ tail) =
        (base + s.length) :: Instr.writes code := by
      simp [Instr.writes, hheader, htail]
    rw [hwrites, hwindow, List.filter_cons_of_pos (by simp)]
    exact h.writes.cons _

end Uses

end Lowering

/-! ### Lowering functions

Outcomes of the steps that hand out scratch locals. -/

/-- The error says that slots are not as they were computed. -/
def LoweringError.ConcernsFrame : LoweringError → Prop
  | .invariant (.unresolved _) _ | .invariant (.frameSize ..) _ => True
  | _ => False

/-- A slot of a variable that can be seen. -/
def SymbolTable.Named (t : SymbolTable) (i : Nat) : Prop :=
  ∃ name var, t.lookupVariable? name = some var ∧ var.slot ≤ i ∧ i < var.slot + var.type.width

namespace Lowering

variable {α β : Type} {s s' : List ValueType}

/-- Lowering succeeds with what is asked for, or it fails, but not because of the frame. -/
def Runs (x : ScratchM α) (s : List ValueType) (post : α → List ValueType → Prop) : Prop :=
  match x s with
  | .ok (a, s') => post a s'
  | .error e => ¬ e.ConcernsFrame

section Running

variable {post : α → List ValueType → Prop}

theorem runs_pure {a : α} (h : post a s) : Runs (pure a) s post :=
  h

theorem runs_throw {error : LoweringError} (h : ¬ error.ConcernsFrame) :
    Runs (throw error) s post :=
  h

/-- An invariant that fails, if it is not one about the frame. -/
theorem runs_violated {what : Invariant} {location : Location}
    (h : ¬ (LoweringError.invariant what (.source location)).ConcernsFrame) :
    Runs (violated what location) s post :=
  h

/-- The second step begins with the scratch locals that the first one has left. -/
theorem Runs.bind {x : ScratchM α} {f : α → ScratchM β} {post' : β → List ValueType → Prop}
    (hx : Runs x s post) (hf : ∀ a s', post a s' → Runs (f a) s' post') :
    Runs (x >>= f) s post' := by
  unfold Runs at hx
  split at hx
  · rename_i a s' hok
    rw [Runs, ScratchM.bind_of_ok hok]
    exact hf a s' hx
  · rename_i e herror
    rw [Runs, ScratchM.bind_of_error herror]
    exact hx

/-- A step that hands nothing out. -/
theorem Runs.still {x : ScratchM α} {f : α → ScratchM β} {post' : β → List ValueType → Prop}
    (hx : Runs x s fun _ s' => s' = s) (hf : ∀ a, Runs (f a) s post') : Runs (x >>= f) s post' := by
  refine hx.bind fun a s' hs => ?_
  rw [hs]
  exact hf a

theorem runs_bind_of_ok {x : ScratchM α} {f : α → ScratchM β} {a : α}
    {post' : β → List ValueType → Prop} (h : x s = .ok (a, s')) (hf : Runs (f a) s' post') :
    Runs (x >>= f) s post' := by
  rw [Runs, ScratchM.bind_of_ok h]
  exact hf

theorem runs_integerWord (location : Location) (value : Int) :
    Runs (integerWord location value) s fun _ s' => s' = s := by
  unfold integerWord
  split
  · exact runs_pure rfl
  · exact runs_violated id

theorem runs_fieldOf (base : DataType) (name : String) (location : Location) :
    Runs (fieldOf base name location) s fun _ s' => s' = s := by
  unfold fieldOf
  split
  · exact runs_pure rfl
  · exact runs_violated id

theorem runs_calleeIndex (c : LoweringContext) (location : Location) (callee : String) :
    Runs (calleeIndex c location callee) s fun _ s' => s' = s := by
  unfold calleeIndex
  split
  · exact runs_pure rfl
  · split
    · exact runs_pure rfl
    · split
      · exact runs_pure rfl
      · exact runs_throw id

theorem runs_callResult (c : LoweringContext) (location : Location) (callee : String) :
    Runs (callResult c location callee) s fun _ s' => s' = s := by
  unfold callResult
  split
  · exact runs_pure rfl
  · exact runs_throw id

theorem elementIndex?_lt {index : Expr} {count i : Nat} (h : index.elementIndex? count = some i) :
    i < count := by
  unfold Expr.elementIndex? at h
  split at h
  · split at h
    · obtain rfl := Option.some.inj h
      omega
    · cases h
  · cases h

/-- The position is that of an element. -/
theorem runs_elementPosition (elements : List DataType) (index : Expr) :
    Runs (elementPosition elements index) s fun i s' =>
      s' = s ∧ ∃ type, elements[i]? = some type := by
  unfold elementPosition
  split
  · rename_i i hi
    have hlt : i < elements.length := elementIndex?_lt hi
    exact runs_pure ⟨rfl, _, List.getElem?_eq_getElem hlt⟩
  · exact runs_violated id

/-- A variable that is found can be seen, and is a tuple. -/
theorem runs_tupleVariable? (c : LoweringContext) (e : Expr) :
    Runs (tupleVariable? c e) s fun found s' =>
      s' = s ∧ ∀ var elements, found = some (var, elements) →
        (∃ name, c.symbols.lookupVariable? name = some var) ∧ var.type = .tuple elements := by
  unfold tupleVariable?
  split
  · split
    · exact runs_throw id
    · rename_i name _ var hvar
      split
      · rename_i elements htuple
        refine runs_pure ⟨rfl, fun var' elements' h => ?_⟩
        obtain ⟨rfl, rfl⟩ := Prod.mk.inj (Option.some.inj h)
        exact ⟨⟨name, hvar⟩, htuple⟩
      · exact runs_pure ⟨rfl, nofun⟩
  · exact runs_pure ⟨rfl, nofun⟩

end Running

/-! ### Expressions

The code of an expression and the locals that were handed out for it. -/

section Expressions

variable {c : LoweringContext}

/-- Code that uses the variables of a context and the scratch locals handed out for it. -/
abbrev UsesScratch (c : LoweringContext) (s : List ValueType) (code : List Instr)
    (s' : List ValueType) : Prop :=
  Uses c.scratchBase c.symbols.Named s s' code

theorem mentionsAll_arithmeticCode (op : BinaryOp) (l r : Lowered) :
    Instr.mentionsAll (arithmeticCode op l r) = Instr.mentionsAll (l.code ++ r.code) := by
  have hop (float : Bool) : Instr.mentionsAll (operatorInstr? op float).toList = [] := by
    cases op <;> cases float <;> rfl
  have hconverted (float : Bool) (l : Lowered) :
      Instr.mentionsAll (converted float l) = Instr.mentionsAll l.code := by
    unfold converted
    split
    · rw [Instr.mentionsAll_append]
      exact List.append_nil _
    · rfl
  simp only [arithmeticCode, Instr.mentionsAll_append, hop, hconverted, List.append_nil]

/-- The slots of an element are among those of its tuple. -/
theorem named_element {name : String} {var : Variable} {elements : List DataType} {i : Nat}
    {type : DataType} (hvar : c.symbols.lookupVariable? name = some var)
    (htuple : var.type = .tuple elements) (htype : elements[i]? = some type) :
    ∀ k < type.width, c.symbols.Named (var.slot + elementStart elements i + k) := by
  intro k hk
  have hwidth : var.type.width = (DataType.machineTypesAll elements).length := by
    rw [htuple]
    rfl
  have hend := elementStart_add_width_le htype
  exact ⟨name, var, hvar, by omega, by omega⟩

mutual

/-- The code of an expression uses variables, and scratch locals that are its own. -/
theorem runs_lowerExpr (c : LoweringContext) (s : List ValueType) :
    (e : Expr) → Runs (lowerExpr c e) s fun l => UsesScratch c s l.code
  | .integer location value => by
    rw [lowerExpr]
    exact (runs_integerWord location value).still fun _ => runs_pure (.quiet rfl)
  | .float .. => by
    rw [lowerExpr]
    exact runs_pure (.quiet rfl)
  | .string _ text => by
    rw [lowerExpr]
    split
    · exact runs_pure (.quiet rfl)
    · exact runs_violated id
  | .identifier _ name => by
    rw [lowerExpr]
    split
    · rename_i var hvar
      exact runs_pure (.getSlots fun k hk => ⟨name, var, hvar, by omega, by omega⟩)
    · exact runs_throw id
  | .unary _ .not _ => by
    rw [lowerExpr]
    exact runs_violated id
  | .unary _ .negate operand => by
    rw [lowerExpr]
    refine (runs_lowerExpr c s operand).bind fun l s' hl => runs_pure (hl.append (.quiet ?_))
    unfold negateCode
    split <;> rfl
  | .binary _ op left right => by
    -- all operators lower both operands first, and what follows uses no other locals
    have hboth {f : Lowered → Lowered → ScratchM Lowered}
        (hf : ∀ l r s', UsesScratch c s (l.code ++ r.code) s' →
          Runs (f l r) s' fun l => UsesScratch c s l.code) :
        Runs (do f (← lowerExpr c left) (← lowerExpr c right)) s fun l => UsesScratch c s l.code :=
      (runs_lowerExpr c s left).bind fun l s₁ hl =>
        (runs_lowerExpr c s₁ right).bind fun r s₂ hr => hf l r s₂ (hl.append hr)
    cases op with
    | and | or =>
      rw [lowerExpr]
      refine hboth fun l r s' h => runs_pure (h.of_eq ?_)
      simp [andCode, orCode, normalized, Instr.mentionsAll, Instr.mentions]
    | _ =>
      rw [lowerExpr]
      · refine hboth fun l r s' h => ?_
        split
        · exact runs_pure (h.of_eq (mentionsAll_arithmeticCode _ l r))
        · exact runs_violated id
      · exact nofun
      · exact nofun
  | .call location callee args => by
    rw [lowerExpr]
    refine (runs_lowerArgs c s args).bind fun code s' hargs => ?_
    refine (runs_calleeIndex c location callee).still fun index => ?_
    exact (runs_callResult c location callee).still fun type =>
      runs_pure (hargs.append (.quiet rfl))
  | .member _ base name => by
    rw [lowerExpr]
    refine (runs_lowerExpr c s base).bind fun b s' hb => ?_
    exact (runs_fieldOf b.type name base.location).still fun _ => runs_pure (hb.append (.quiet rfl))
  | .index location base index => by
    rw [lowerExpr]
    refine (runs_tupleVariable? c base).bind fun found s' ⟨hs, hfound⟩ => ?_
    subst hs
    cases found with
    | some p =>
      obtain ⟨var, elements⟩ := p
      obtain ⟨⟨name, hvar⟩, htuple⟩ := hfound var elements rfl
      refine (runs_elementPosition elements index).bind fun i s' ⟨hs, type, htype⟩ => ?_
      rw [hs, elementType_eq htype]
      exact runs_pure (.getSlots (named_element hvar htuple htype))
    | none =>
      refine (runs_lowerExpr c s' base).bind fun b s₁ hb => ?_
      split
      · refine (runs_lowerExpr c s₁ index).bind fun i s₂ hi => ?_
        exact runs_pure ((hb.append hi).append (.quiet rfl))
      · rename_i elements _
        refine (runs_elementPosition elements index).bind fun i s₂ ⟨hs, type, htype⟩ => ?_
        subst hs
        refine runs_bind_of_ok (spillTuple_eq htype s₂) ?_
        exact runs_pure (hb.append (.spill (elementStart_add_width_le htype)))
      · exact runs_violated id
  | .array _ items => by
    rw [lowerExpr]
    refine runs_bind_of_ok (allocScratch_apply c .i32) ?_
    refine (runs_lowerItems c _ 1 .i32 _ items).bind fun p s' h => runs_pure ?_
    exact .array rfl rfl h
  | .tuple _ items => by
    rw [lowerExpr]
    exact (runs_lowerElements c s items).bind fun _ _ h => runs_pure h

theorem runs_lowerArgs (c : LoweringContext) (s : List ValueType) :
    (args : List Expr) → Runs (lowerArgs c args) s fun code => UsesScratch c s code
  | [] => by
    rw [lowerArgs]
    exact runs_pure (.quiet rfl)
  | arg :: args => by
    rw [lowerArgs]
    refine (runs_lowerExpr c s arg).bind fun a s' ha => ?_
    exact (runs_lowerArgs c s' args).bind fun _ _ h => runs_pure (ha.append h)

theorem runs_lowerElements (c : LoweringContext) (s : List ValueType) :
    (items : List Expr) → Runs (lowerElements c items) s fun p => UsesScratch c s p.1
  | [] => by
    rw [lowerElements]
    exact runs_pure (.quiet rfl)
  | item :: items => by
    rw [lowerElements]
    refine (runs_lowerExpr c s item).bind fun l s' hl => ?_
    exact (runs_lowerElements c s' items).bind fun _ _ h => runs_pure (hl.append h)

/-- The items are stored through the local of their block. -/
theorem runs_lowerItems (c : LoweringContext) (base cell : Nat) (element : DataType)
    (s : List ValueType) : (items : List Expr) → Runs (lowerItems c base cell element items) s
      fun p s' => Uses c.scratchBase (fun i => c.symbols.Named i ∨ i = base) s s' p.1
  | [] => by
    rw [lowerItems]
    exact runs_pure (.quiet rfl)
  | item :: items => by
    rw [lowerItems]
    refine (runs_lowerExpr c s item).bind fun l s' hl => ?_
    refine (runs_lowerItems c base (cell + 1) l.type s' items).bind fun p s'' h => runs_pure ?_
    -- the local is read before each item, and nothing else is between them
    have hbase : Uses c.scratchBase (fun i => c.symbols.Named i ∨ i = base) s s (getSlots base 1) :=
      .getSlots fun k hk => .inr (by omega)
    refine (hbase.append ((hl.mono fun i hi => .inl hi).append h)).of_eq ?_
    simp [Instr.mentionsAll, Instr.mentions, mentionsAll_getSlots, storeCell]

end

end Expressions

end Lowering

end WasmCompiler
