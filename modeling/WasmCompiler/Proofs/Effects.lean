import WasmCompiler.Lowering.Stmt
import WasmCompiler.Typing.Program

/-!
# Results of stateful computations

Parsing, checking and lowering are written as sequences of steps that may fail. The lemmas here
open such a sequence: it succeeds exactly if its first step does and the rest succeeds on what that
step gave. Proofs about the passes take their computations apart with these and never unfold the
sequencing itself.

* `Except.bind_eq_ok_iff` and its kin take apart the typing of expressions, where a step has no
  state.
* `ScratchM.bind_eq_ok_iff` takes apart the lowering of expressions, whose state is the list of
  scratch locals that were handed out. An error carries no state.
* `EStateM.bind_eq_ok_iff` and `EStateM.bind_eq_error_iff` take apart parsing, checking and the
  lowering of statements. Here an error carries the state in which it arose.
-/

namespace WasmCompiler

/-! ### Steps that may fail

The rules of `typeOf` are sequences of these steps. -/

section Except

variable {ε α β : Type}

/-- A sequence succeeds if its first step does and the rest succeeds on what that step gave. -/
theorem Except.bind_eq_ok_iff {x : Except ε α} {f : α → Except ε β} {b : β} :
    (x >>= f) = .ok b ↔ ∃ a, x = .ok a ∧ f a = .ok b := by
  cases x with
  | error e => simp [bind, Except.bind]
  | ok a => simp [bind, Except.bind]

/-- The first step of this sequence is a mere check, whose result nothing uses. -/
theorem Except.seq_eq_ok_iff {x : Except ε Unit} {y : Except ε β} {b : β} :
    (x >>= fun _ => y) = .ok b ↔ x = .ok () ∧ y = .ok b := by
  cases x with
  | error e => simp [bind, Except.bind]
  | ok a => simp [bind, Except.bind]

theorem Except.map_eq_ok_iff {x : Except ε α} {f : α → β} {b : β} :
    f <$> x = .ok b ↔ ∃ a, x = .ok a ∧ f a = b := by
  cases x with
  | error e => simp [Functor.map, Except.map]
  | ok a => simp [Functor.map, Except.map]

/-- A computation that is seen to succeed has a result. Witnesses that run a pass on a fixed program
start here. -/
theorem Except.exists_of_toBool {x : Except ε α} (h : x.toBool) : ∃ a, x = .ok a := by
  cases x with
  | error e => cases h
  | ok a => exact ⟨a, rfl⟩

/-- As `Except.exists_of_toBool`, with a test that the result has been seen to pass. -/
theorem Except.exists_of_any {x : Except ε α} {p : α → Bool} (h : x.toOption.any p) :
    ∃ a, x = .ok a ∧ p a := by
  cases x with
  | error e => cases h
  | ok a => exact ⟨a, rfl, h⟩

end Except

/-! ### Steps that hand out scratch locals

A scratch local is taken for good, so the list only grows; the two steps that are not sequences
compute by `rfl`. -/

section Scratch

variable {α β : Type} {s s' : List Wasm.ValueType}

/-- A sequence succeeds if its first step does and the rest succeeds on what that step gave, from
the scratch locals it left. -/
theorem ScratchM.bind_eq_ok_iff {x : ScratchM α} {f : α → ScratchM β} {b : β} :
    (x >>= f) s = .ok (b, s') ↔ ∃ a t, x s = .ok (a, t) ∧ f a t = .ok (b, s') := by
  show (x s >>= fun p => f p.1 p.2) = .ok (b, s') ↔ _
  rw [Except.bind_eq_ok_iff]
  constructor
  · rintro ⟨⟨a, t⟩, hx, hf⟩
    exact ⟨a, t, hx, hf⟩
  · rintro ⟨a, t, hx, hf⟩
    exact ⟨(a, t), hx, hf⟩

/-- The rest of a sequence goes on with what its first step gave. -/
theorem ScratchM.bind_of_ok {x : ScratchM α} {f : α → ScratchM β} {a : α}
    (h : x s = .ok (a, s')) : (x >>= f) s = f a s' := by
  show (x s >>= fun p => f p.1 p.2) = f a s'
  rw [h]
  rfl

/-- A sequence stops at the first error. -/
theorem ScratchM.bind_of_error {x : ScratchM α} {f : α → ScratchM β} {e : LoweringError}
    (h : x s = .error e) : (x >>= f) s = .error e := by
  show (x s >>= fun p => f p.1 p.2) = .error e
  rw [h]
  rfl

@[simp] theorem ScratchM.pure_apply (a : α) : (pure a : ScratchM α) s = .ok (a, s) := rfl

/-- A new scratch local comes behind those that were handed out before. -/
@[simp] theorem Lowering.allocScratch_apply (c : LoweringContext) (type : Wasm.ValueType) :
    Lowering.allocScratch c type s = .ok (c.scratchBase + s.length, s ++ [type]) := rfl

end Scratch

/-! ### Steps that change a state

The symbol table and the parser are such states. -/

section EState

variable {ε σ α β : Type} {s s' : σ}

/-- A sequence succeeds if its first step does and the rest succeeds from the state that step
left. -/
theorem EStateM.bind_eq_ok_iff {x : EStateM ε σ α} {f : α → EStateM ε σ β} {b : β} :
    (x >>= f) s = .ok b s' ↔ ∃ a t, x s = .ok a t ∧ f a t = .ok b s' := by
  simp only [bind, EStateM.bind]
  cases hx : x s with
  | ok a t =>
    constructor
    · intro h
      exact ⟨a, t, rfl, h⟩
    · rintro ⟨a', t', h, hf⟩
      obtain ⟨rfl, rfl⟩ := EStateM.Result.ok.inj h
      exact hf
  | error e t => simp

/-- The rest of a sequence goes on with what its first step gave. -/
theorem EStateM.bind_of_ok {x : EStateM ε σ α} {f : α → EStateM ε σ β} {a : α}
    (h : x s = .ok a s') : (x >>= f) s = f a s' := by
  simp only [bind, EStateM.bind, h]

/-- A sequence stops at the first error, in the state of that error. -/
theorem EStateM.bind_of_error {x : EStateM ε σ α} {f : α → EStateM ε σ β} {e : ε}
    (h : x s = .error e s') : (x >>= f) s = .error e s' := by
  simp only [bind, EStateM.bind, h]

/-- A sequence fails in its first step or after it. -/
theorem EStateM.bind_eq_error_iff {x : EStateM ε σ α} {f : α → EStateM ε σ β} {e : ε} :
    (x >>= f) s = .error e s' ↔ x s = .error e s' ∨ ∃ a t, x s = .ok a t ∧ f a t = .error e s' := by
  simp only [bind, EStateM.bind]
  cases hx : x s with
  | ok a t =>
    constructor
    · intro h
      exact .inr ⟨a, t, rfl, h⟩
    · rintro (h | ⟨a', t', h, hf⟩)
      · cases h
      · obtain ⟨rfl, rfl⟩ := EStateM.Result.ok.inj h
        exact hf
  | error e t => simp

/-- What follows a step matters only where the step can lead. -/
theorem EStateM.bind_congr {x y : EStateM ε σ α} {f g : α → EStateM ε σ β} (hx : x s = y s)
    (hf : ∀ a t, x s = .ok a t → f a t = g a t) : (x >>= f) s = (y >>= g) s := by
  cases h : x s with
  | ok a t => rw [EStateM.bind_of_ok h, EStateM.bind_of_ok (hx ▸ h), hf a t h]
  | error e t => rw [EStateM.bind_of_error h, EStateM.bind_of_error (hx ▸ h)]

theorem EStateM.map_eq_ok_iff {x : EStateM ε σ α} {f : α → β} {b : β} :
    (f <$> x) s = .ok b s' ↔ ∃ a, x s = .ok a s' ∧ f a = b := by
  simp only [Functor.map, EStateM.map]
  cases hx : x s with
  | ok a t =>
    constructor
    · intro h
      obtain ⟨rfl, rfl⟩ := EStateM.Result.ok.inj h
      exact ⟨a, rfl, rfl⟩
    · rintro ⟨a', h, rfl⟩
      obtain ⟨rfl, rfl⟩ := EStateM.Result.ok.inj h
      rfl
  | error e t => simp

theorem EStateM.pure_eq_ok_iff {a b : α} :
    (pure a : EStateM ε σ α) s = .ok b s' ↔ a = b ∧ s = s' := by
  simp [pure, EStateM.pure]

/-- Going through a list is going through its head and then its tail; inductions over `mapM` use
nothing else. -/
theorem EStateM.mapM_cons_eq_ok_iff {f : α → EStateM ε σ β} {x : α} {xs : List α} {ys : List β} :
    (x :: xs).mapM f s = .ok ys s' ↔
      ∃ y t, f x s = .ok y t ∧ ∃ rest, xs.mapM f t = .ok rest s' ∧ y :: rest = ys := by
  rw [List.mapM_cons, EStateM.bind_eq_ok_iff]
  simp only [bind_pure_comp, EStateM.map_eq_ok_iff]

@[simp] theorem EStateM.throw_ne_ok {e : ε} {b : α} :
    (throw e : EStateM ε σ α) s ≠ .ok b s' := by
  intro h
  cases h

/-- A run that has been seen to succeed has a result and a last state, and the result passes the
test that was made. -/
theorem EStateM.exists_of_any {x : EStateM ε σ α} {p : α → Bool} (h : (x.run' s).any p) :
    ∃ a s', x s = .ok a s' ∧ p a := by
  unfold EStateM.run' EStateM.run at h
  cases hx : x s with
  | error e s' =>
    rw [hx] at h
    cases h
  | ok a s' =>
    rw [hx] at h
    exact ⟨a, s', rfl, h⟩

theorem EStateM.modify_apply (f : σ → σ) (s : σ) :
    (modify f : EStateM ε σ Unit) s = .ok () (f s) :=
  rfl

theorem EStateM.get_apply (s : σ) : (get : EStateM ε σ σ) s = .ok s s :=
  rfl

theorem EStateM.modify_eq_ok_iff {f : σ → σ} {u : Unit} :
    (modify f : EStateM ε σ Unit) s = .ok u s' ↔ f s = s' := by
  rw [EStateM.modify_apply]
  simp

theorem EStateM.get_eq_ok_iff {t : σ} :
    (get : EStateM ε σ σ) s = .ok t s' ↔ s = t ∧ s = s' := by
  rw [EStateM.get_apply]
  simp

end EState

end WasmCompiler
