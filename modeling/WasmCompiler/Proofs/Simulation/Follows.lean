import WasmCompiler.Proofs.Lowering.Code
import WasmCompiler.Proofs.Machine.Run
import WasmCompiler.Proofs.Semantics.Source

/-!
# Machines that follow an evaluation

`Follows env m outcome post` compares a machine with what an evaluation gives: where the evaluation
has a result, the machine gets to a state that fits it (`post`); where the evaluation traps, so does
the machine, for the same reason. Evaluations that make no sense are not followed by any machine, so
a proof that a machine follows is also one that they do not come up.

The rules go along the evaluation: `Follows.bind` puts two parts together, and `Follows.after` runs
the machine while the evaluation stands still.
-/

namespace WasmCompiler

open Source (Datum Eval Scopes Stop World)
open Wasm (Environment InLocals Instr Machine Place Store Value)
open Wasm.Machine (Reaches)

/-- The world as a machine has it. -/
def Source.World.store (w : World) : Store :=
  ⟨w.memory, #[w.heap], w.host⟩

/-- The machine does what an evaluation does; where that has a result, the machine gets to a state
that fits it. -/
def Follows {α : Type} (env : Environment) (m : Machine) (outcome : Except Stop (α × World))
    (post : α → World → Machine → Prop) : Prop :=
  match outcome with
  | .ok (a, w) => ∃ m', Reaches env m m' ∧ post a w m'
  | .error (.trap cause) => ∃ m', Reaches env m m' ∧ m'.step env = .trapped cause
  | .error .endless => True
  | .error .wrong => False

namespace Follows

variable {α β : Type} {env : Environment} {m m₁ : Machine} {w : World}

theorem pure {a : α} {post : α → World → Machine → Prop} (h : post a w m) :
    Follows env m ((Pure.pure a : Eval α) w) post :=
  ⟨m, .refl, h⟩

/-- A machine follows what one follows that it gets to. -/
theorem after {outcome : Except Stop (α × World)} {post : α → World → Machine → Prop}
    (h : Reaches env m m₁) (h' : Follows env m₁ outcome post) : Follows env m outcome post := by
  match outcome, h' with
  | .ok _, ⟨m', hreaches, hpost⟩ => exact ⟨m', h.trans hreaches, hpost⟩
  | .error (.trap _), ⟨m', hreaches, hstep⟩ => exact ⟨m', h.trans hreaches, hstep⟩
  | .error .endless, _ => exact True.intro

theorem weaken {outcome : Except Stop (α × World)} {post post' : α → World → Machine → Prop}
    (h : Follows env m outcome post) (hpost : ∀ a w m', post a w m' → post' a w m') :
    Follows env m outcome post' := by
  match outcome, h with
  | .ok (a, w), ⟨m', hreaches, h⟩ => exact ⟨m', hreaches, hpost a w m' h⟩
  | .error (.trap _), h => exact h
  | .error .endless, _ => exact True.intro

/-- One part after the other. -/
theorem bind {x : Eval α} {f : α → Eval β} {post : β → World → Machine → Prop}
    {between : α → World → Machine → Prop} (hx : Follows env m (x w) between)
    (hf : ∀ a w' m', between a w' m' → Follows env m' (f a w') post) :
    Follows env m ((x >>= f) w) post := by
  have hbind : (x >>= f) w = (x w).bind fun (a, w') => f a w' := rfl
  rw [hbind]
  generalize x w = outcome at hx
  match outcome, hx with
  | .ok (a, w'), ⟨m', hreaches, hbetween⟩ => exact (hf a w' m' hbetween).after hreaches
  | .error (.trap _), hx => exact hx
  | .error .endless, _ => exact True.intro

/-- A part of an evaluation at which the machine has nothing to do. -/
theorem bind_of_ok {x : Eval α} {f : α → Eval β} {a : α} {w' : World}
    {post : β → World → Machine → Prop} (hx : x w = .ok (a, w'))
    (hf : Follows env m (f a w') post) : Follows env m ((x >>= f) w) post := by
  have hbind : (x >>= f) w = (x w).bind fun (a, w') => f a w' := rfl
  rw [hbind, hx]
  exact hf

end Follows

end WasmCompiler
