import WasmCompiler.Proofs.Effects
import WasmCompiler.Proofs.Tree.Operations

/-!
# Parsing with the literals elsewhere

A parser puts string literals into a pool and never looks at their addresses. So two runs over the
same text, with pools that begin at different multiples of the cell size, take the same steps as
long as both succeed: they read the same tokens, give the same results, and their pools differ in
the address they begin at only (`Lockstep`). Parsers are put together from a few operations, so it
is enough that these keep in step (`Built.lockstep`).

The pools are described as one pool that begins at zero, shifted to two places
(`StringPool.shift`). Every record keeps its distance from the beginning, because records are
aligned to the cell size and the beginnings are multiples of it.
-/

namespace WasmCompiler

/-! ### Pools at another address

One pool that begins at zero stands for all places it can be shifted to. -/

/-- Rounding up commutes with a shift by whole cells. -/
theorem alignCell_add {n : Nat} (h : cellSize ∣ n) (k : Nat) :
    alignCell (n + k) = n + alignCell k := by
  simp only [alignCell, cellSize] at h ⊢
  omega

namespace StringPool

variable {pool pool' : StringPool} {n : Nat} {text : String}

/-- The pool with all addresses moved up. -/
def shift (n : Nat) (pool : StringPool) : StringPool :=
  ⟨pool.entries.map fun entry => (entry.1, n + entry.2), n + pool.limit⟩

/-- The pool with a literal in it, if there were no end of the address space. -/
def place (pool : StringPool) (text : String) : StringPool :=
  match pool.offset? text with
  | some _ => pool
  | none => ⟨pool.entries ++ [(text, pool.limit)], pool.limitAfter text⟩

/-- A shifted pool finds the same literals, each further up. -/
theorem offset?_shift : (pool.shift n).offset? text = (pool.offset? text).map (n + ·) := by
  simp only [offset?, shift]
  induction pool.entries with
  | nil => rfl
  | cons entry entries ih =>
    obtain ⟨other, offset⟩ := entry
    rw [List.map_cons, List.lookup_cons, List.lookup_cons]
    cases text == other with
    | true => rfl
    | false => exact ih

/-- The end after another literal is shifted too. -/
theorem limitAfter_shift (h : cellSize ∣ n) :
    (pool.shift n).limitAfter text = n + pool.limitAfter text := by
  simp only [limitAfter, shift]
  rw [Nat.add_assoc, alignCell_add h]

/-- A literal gets the same place wherever the pool begins. -/
theorem intern?_shift (h : cellSize ∣ n) {offset : Nat}
    (hintern : (pool.shift n).intern? text = some (offset, pool')) :
    pool' = (pool.place text).shift n := by
  rw [intern?, offset?_shift] at hintern
  rw [place]
  cases hoffset : pool.offset? text with
  | some k =>
    rw [hoffset] at hintern
    exact (Prod.mk.inj (Option.some.inj hintern)).2.symm
  | none =>
    rw [hoffset] at hintern
    simp only [Option.map_none] at hintern
    split at hintern
    · obtain ⟨-, rfl⟩ := Prod.mk.inj (Option.some.inj hintern)
      rw [limitAfter_shift h]
      simp [shift]
    · cases hintern

/-- The shift forgets nothing. -/
theorem shift_injective (h : pool.shift n = pool'.shift n) : pool = pool' := by
  obtain ⟨entries, limit⟩ := pool
  obtain ⟨entries', limit'⟩ := pool'
  obtain ⟨hentries, hlimit⟩ := StringPool.mk.inj h
  have hentry (entry entry' : String × Nat)
      (heq : (entry.1, n + entry.2) = (entry'.1, n + entry'.2)) : entry = entry' := by
    obtain ⟨htext, hoffset⟩ := Prod.mk.inj heq
    exact Prod.ext htext (Nat.add_left_cancel hoffset)
  have hsame : entries = entries' := (List.map_inj_right hentry).mp hentries
  rw [hsame, show limit = limit' from Nat.add_left_cancel hlimit]

/-- A pool without literals begins at its start, rounded up. -/
theorem empty_eq_shift {start : Nat} (h : alignCell start < addressSpace) :
    empty start = shift (alignCell start) ⟨[], 0⟩ := by
  rw [empty, if_pos h]
  rfl

end StringPool

namespace Parse

/-! ### Parsers in step

Two parsers at the same tokens, with pools that are shifts of the same one. -/

/-- Parsers that differ in the address at which their literals begin. -/
def Apart (n n' : Nat) (p p' : Parser) : Prop :=
  ∃ pool : StringPool, p.strings = pool.shift n ∧ p' = { p with strings := pool.shift n' }

/-- Two runs that succeed give the same, and their literals lie as far apart as before. -/
def Lockstep {α : Type} (n n' : Nat) (m : ParseM α) : Prop :=
  ∀ p p', Apart n n' p p' → ∀ a q b q', m p = .ok a q → m p' = .ok b q' →
    b = a ∧ Apart n n' q q'

section Lockstep

variable {α β : Type} {n n' : Nat}

theorem lockstep_pure (a : α) : Lockstep n n' (pure a) := by
  intro p p' hapart b q b' q' h h'
  obtain ⟨rfl, rfl⟩ := EStateM.pure_eq_ok_iff.mp h
  obtain ⟨rfl, rfl⟩ := EStateM.pure_eq_ok_iff.mp h'
  exact ⟨rfl, hapart⟩

theorem lockstep_throw (e : ParseError) : Lockstep n n' (throw e : ParseM α) := by
  intro p p' _ a q b q' h
  cases h

/-- If the first operations keep in step, the second ones get the same value and pools as far
apart. -/
theorem Lockstep.bind {m : ParseM α} {k : α → ParseM β} (hm : Lockstep n n' m)
    (hk : ∀ a, Lockstep n n' (k a)) : Lockstep n n' (m >>= k) := by
  intro p p' hapart b q b' q' h h'
  obtain ⟨a, p₁, ha, hb⟩ := EStateM.bind_eq_ok_iff.mp h
  obtain ⟨a', p₁', ha', hb'⟩ := EStateM.bind_eq_ok_iff.mp h'
  obtain ⟨rfl, hapart₁⟩ := hm p p' hapart a p₁ a' p₁' ha ha'
  exact hk a' p₁ p₁' hapart₁ b q b' q' hb hb'

/-! ### Tokens and literals

The operations that parsers are put together from. -/

/-- The next token does not depend on the pool. -/
theorem lockstep_advance : Lockstep n n' advance := by
  rintro p p' ⟨pool, hpool, rfl⟩ a q b q' h h'
  rw [advance] at h h'
  dsimp only at h'
  split at h
  · rename_i hupcoming
    rw [hupcoming] at h'
    obtain ⟨rfl, rfl⟩ := EStateM.Result.ok.inj h
    obtain ⟨rfl, rfl⟩ := EStateM.Result.ok.inj h'
    exact ⟨rfl, pool, hpool, by rw [hupcoming]⟩
  · rename_i next rest hupcoming
    rw [hupcoming] at h'
    obtain ⟨rfl, rfl⟩ := EStateM.Result.ok.inj h
    obtain ⟨rfl, rfl⟩ := EStateM.Result.ok.inj h'
    refine ⟨rfl, pool, hpool, ?_⟩
    rw [hupcoming]
  · cases h

/-- A look at the next token does not depend on the pool. -/
theorem lockstep_peek : Lockstep n n' peek := by
  rintro p p' ⟨pool, hpool, rfl⟩ a q b q' h h'
  obtain ⟨rfl, rfl⟩ := EStateM.Result.ok.inj h
  obtain ⟨rfl, rfl⟩ := EStateM.Result.ok.inj h'
  exact ⟨rfl, pool, hpool, rfl⟩

theorem lockstep_rounds : Lockstep n n' rounds := by
  rintro p p' ⟨pool, hpool, rfl⟩ a q b q' h h'
  obtain ⟨rfl, rfl⟩ := EStateM.Result.ok.inj h
  obtain ⟨rfl, rfl⟩ := EStateM.Result.ok.inj h'
  exact ⟨rfl, pool, hpool, rfl⟩

/-- The one operation that touches the pool: both pools have the literal, or both get it at the same
distance. -/
theorem lockstep_intern (hn : cellSize ∣ n) (hn' : cellSize ∣ n') (text : String)
    (location : Location) : Lockstep n n' (intern text location) := by
  rintro p p' ⟨pool, hpool, rfl⟩ a q b q' h h'
  rw [intern, hpool] at h
  rw [intern] at h'
  dsimp only at h'
  split at h
  · rename_i offset strings hintern
    obtain ⟨-, rfl⟩ := EStateM.Result.ok.inj h
    split at h'
    · rename_i offset' strings' hintern'
      obtain ⟨-, rfl⟩ := EStateM.Result.ok.inj h'
      refine ⟨rfl, pool.place text, StringPool.intern?_shift hn hintern, ?_⟩
      rw [StringPool.intern?_shift hn' hintern']
    · cases h'
  · cases h

/-- Whatever is put together from these operations keeps in step. -/
theorem Built.lockstep (hn : cellSize ∣ n) (hn' : cellSize ∣ n') {m : ParseM α} (hm : Built m) :
    Lockstep n n' m := by
  induction hm with
  | pure a => exact lockstep_pure a
  | throw e => exact lockstep_throw e
  | bind _ _ ihm ihf => exact ihm.bind ihf
  | advance => exact lockstep_advance
  | peek => exact lockstep_peek
  | rounds => exact lockstep_rounds
  | intern text location => exact lockstep_intern hn hn' text location

end Lockstep

end Parse

/-- Parsing a text with the literals at another multiple of the cell size gives the same program,
and the literals lie in the same order and at the same distances there. -/
theorem parseProgram_shift {n n' : Nat} (hn : cellSize ∣ n) (hn' : cellSize ∣ n') {text : String}
    {pool strings strings' : StringPool} {program program' : Program}
    (h : parseProgram text (pool.shift n) = (.ok program, strings))
    (h' : parseProgram text (pool.shift n') = (.ok program', strings')) :
    program' = program ∧
      ∃ pool' : StringPool, strings = pool'.shift n ∧ strings' = pool'.shift n' := by
  obtain ⟨p, q, hstart, hrun, rfl⟩ := Parse.parseProgram_eq_ok_iff.mp h
  obtain ⟨p', q', hstart', hrun', rfl⟩ := Parse.parseProgram_eq_ok_iff.mp h'
  -- the first token does not depend on the pool, so the second run begins as this one does
  obtain ⟨hstrings, hother⟩ := Parse.start_eq_ok hstart
  obtain rfl := Except.ok.inj ((hother _).symm.trans hstart')
  obtain ⟨rfl, pool', hpool', rfl⟩ := Parse.built_program.lockstep hn hn' p _
    ⟨pool, hstrings, rfl⟩ _ _ _ _ hrun hrun'
  exact ⟨rfl, pool', hpool', rfl⟩

end WasmCompiler
