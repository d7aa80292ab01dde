import WasmCompiler.Proofs.Effects
import WasmCompiler.Tree.Parser.Stmt

/-!
# The loops of the parser

The parser repeats items as long as one begins, items with commas between them, and operators that
are folded into an expression. Here these are loops that go on until nothing more is found, and no
number of rounds is given to them (`Loop.Runs`). A run may fail in any round; how often it goes
round depends on nothing but where it begins (`Loop.Runs.unique`).

A loop ends if every round that comes to its end leaves less to do (`Loop.Lowers.exists_runs`).
What a parser with a number of rounds gives is what the loop gives, if the number is not too small.

There are three such loops: `itemLoop`, `listLoop` and `operatorLoop`. For each, the lemmas about
`next` and `body` say what one round is, and `Loop.Runs.many_eq`, `Loop.Runs.commaSeparated_eq` and
`Loop.Runs.climb_eq` that the parser gives what the loop gives.
-/

namespace WasmCompiler.Parse

/-- A loop. In a state it looks for another round with `next`, which tells what the round begins
with, and goes through it with `body`. -/
structure Loop (σ κ α : Type) where
  next : σ → ParseM (Option κ)
  body : σ → κ → ParseM σ
  finish : σ → α

namespace Loop

variable {σ κ α : Type} {loop : Loop σ κ α} {s s' : σ} {k : κ} {p q r : Parser} {e : ParseError}
  {n : Nat} {result : EStateM.Result ParseError Parser α}

/-- From a state the loop begins `n` rounds and ends with a result or an error. -/
inductive Runs (loop : Loop σ κ α) :
    σ → Parser → Nat → EStateM.Result ParseError Parser α → Prop where
  | stop {s : σ} {p q : Parser} (hnext : loop.next s p = .ok none q) :
      Runs loop s p 0 (.ok (loop.finish s) q)
  | stuck {s : σ} {p q : Parser} {e : ParseError} (hnext : loop.next s p = .error e q) :
      Runs loop s p 0 (.error e q)
  | broken {s : σ} {k : κ} {p q r : Parser} {e : ParseError}
      (hnext : loop.next s p = .ok (some k) q) (hbody : loop.body s k q = .error e r) :
      Runs loop s p 1 (.error e r)
  | again {s s' : σ} {k : κ} {p q r : Parser} {n : Nat}
      {result : EStateM.Result ParseError Parser α} (hnext : loop.next s p = .ok (some k) q)
      (hbody : loop.body s k q = .ok s' r) (hruns : Runs loop s' r n result) :
      Runs loop s p (n + 1) result

/-- A loop has one way to run. -/
theorem Runs.unique {n' : Nat} {result' : EStateM.Result ParseError Parser α}
    (h : loop.Runs s p n result) (h' : loop.Runs s p n' result') : n' = n ∧ result' = result := by
  -- the second run must end or go on as the first one does, since both ask the same
  induction h generalizing n' result' with
  | stop hnext =>
    cases h' with
    | stop hnext' =>
      obtain ⟨-, rfl⟩ := EStateM.Result.ok.inj (hnext.symm.trans hnext')
      exact ⟨rfl, rfl⟩
    | stuck hnext' | broken hnext' | again hnext' => cases hnext.symm.trans hnext'
  | stuck hnext =>
    cases h' with
    | stuck hnext' =>
      obtain ⟨rfl, rfl⟩ := EStateM.Result.error.inj (hnext.symm.trans hnext')
      exact ⟨rfl, rfl⟩
    | stop hnext' | broken hnext' | again hnext' => cases hnext.symm.trans hnext'
  | broken hnext hbody =>
    cases h' with
    | stop hnext' | stuck hnext' => cases hnext.symm.trans hnext'
    | broken hnext' hbody' =>
      obtain ⟨hk, rfl⟩ := EStateM.Result.ok.inj (hnext.symm.trans hnext')
      obtain rfl := Option.some.inj hk
      obtain ⟨rfl, rfl⟩ := EStateM.Result.error.inj (hbody.symm.trans hbody')
      exact ⟨rfl, rfl⟩
    | again hnext' hbody' =>
      obtain ⟨hk, rfl⟩ := EStateM.Result.ok.inj (hnext.symm.trans hnext')
      obtain rfl := Option.some.inj hk
      cases hbody.symm.trans hbody'
  | again hnext hbody _ ih =>
    cases h' with
    | stop hnext' | stuck hnext' => cases hnext.symm.trans hnext'
    | broken hnext' hbody' =>
      obtain ⟨hk, rfl⟩ := EStateM.Result.ok.inj (hnext.symm.trans hnext')
      obtain rfl := Option.some.inj hk
      cases hbody.symm.trans hbody'
    | again hnext' hbody' hruns' =>
      obtain ⟨hk, rfl⟩ := EStateM.Result.ok.inj (hnext.symm.trans hnext')
      obtain rfl := Option.some.inj hk
      obtain ⟨rfl, rfl⟩ := EStateM.Result.ok.inj (hbody.symm.trans hbody')
      obtain ⟨rfl, rfl⟩ := ih hruns'
      exact ⟨rfl, rfl⟩

/-- Something is left when a round begins, and less when it has come to its end. -/
structure Lowers (loop : Loop σ κ α) (I : Parser → Prop) (left : σ → Parser → Nat) : Prop where
  started : ∀ {s k p q}, I p → loop.next s p = .ok (some k) q → 0 < left s p
  again : ∀ {s s' k p q r}, I p → loop.next s p = .ok (some k) q → loop.body s k q = .ok s' r →
    I r ∧ left s' r < left s p

/-- Such a loop ends, and begins no more rounds than there is left at its beginning. -/
theorem Lowers.exists_runs {I : Parser → Prop} {left : σ → Parser → Nat}
    (h : loop.Lowers I left) (s : σ) (hp : I p) :
    ∃ n result, loop.Runs s p n result ∧ n ≤ left s p := by
  induction hleft : left s p using Nat.strongRecOn generalizing s p with
  | ind bound ih =>
    cases hnext : loop.next s p with
    | error e q => exact ⟨0, _, .stuck hnext, Nat.zero_le _⟩
    | ok answer q =>
      cases answer with
      | none => exact ⟨0, _, .stop hnext, Nat.zero_le _⟩
      | some k =>
        -- a round that fails counts as well, and there is something left when it begins
        have hstarted := h.started hp hnext
        cases hbody : loop.body s k q with
        | error e r => exact ⟨1, _, .broken hnext hbody, by omega⟩
        | ok s' r =>
          obtain ⟨hr, hless⟩ := h.again hp hnext hbody
          obtain ⟨n, result, hruns, hn⟩ := ih _ (hleft ▸ hless) s' hr rfl
          exact ⟨n + 1, result, .again hnext hbody hruns, by omega⟩

end Loop

variable {α : Type} {p q : Parser} {n : Nat} {result : EStateM.Result ParseError Parser (List α)}

/-! ### Items as long as one begins

`many more item`, which blocks and tuples use. -/

/-- While `more` holds, another item. -/
def itemLoop (more : ParseM Bool) (item : ParseM α) : Loop (List α) Unit (List α) where
  next _ := do return if ← more then some () else none
  body xs _ := do return xs ++ [← item]
  finish xs := xs

section Many

variable {more : ParseM Bool} {item : ParseM α} {xs ys : List α} {e : ParseError}

/-- Whether another item begins is what `more` answers. -/
theorem next_itemLoop_eq_ok_iff {answer : Option Unit} :
    (itemLoop more item).next xs p = .ok answer q ↔ more p = .ok answer.isSome q := by
  simp only [itemLoop, EStateM.bind_eq_ok_iff, EStateM.pure_eq_ok_iff]
  constructor
  · rintro ⟨found, t, hmore, rfl, rfl⟩
    cases found <;> exact hmore
  · intro hmore
    refine ⟨_, _, hmore, ?_, rfl⟩
    cases answer <;> rfl

theorem next_itemLoop_eq_error_iff :
    (itemLoop more item).next xs p = .error e q ↔ more p = .error e q := by
  simp only [itemLoop, EStateM.bind_eq_error_iff]
  constructor
  · rintro (hmore | ⟨found, t, -, hpure⟩)
    · exact hmore
    · cases hpure
  · exact .inl

/-- A round puts one item behind the others. -/
theorem body_itemLoop_eq_ok_iff {u : Unit} :
    (itemLoop more item).body xs u p = .ok ys q ↔ ∃ x, item p = .ok x q ∧ xs ++ [x] = ys := by
  simp only [itemLoop, EStateM.bind_eq_ok_iff, EStateM.pure_eq_ok_iff]
  constructor
  · rintro ⟨x, t, hitem, rfl, rfl⟩
    exact ⟨x, hitem, rfl⟩
  · rintro ⟨x, hitem, rfl⟩
    exact ⟨x, q, hitem, rfl, rfl⟩

theorem body_itemLoop_eq_error_iff {u : Unit} :
    (itemLoop more item).body xs u p = .error e q ↔ item p = .error e q := by
  simp only [itemLoop, EStateM.bind_eq_error_iff]
  constructor
  · rintro (hitem | ⟨x, t, -, hpure⟩)
    · exact hitem
    · cases hpure
  · exact .inl

/-- Items behind those that are there already: one round. -/
theorem map_manyUpTo_succ (xs : List α) (n : Nat) :
    (xs ++ ·) <$> manyUpTo more item (n + 1) = more >>= fun found =>
      if found then item >>= fun x => (xs ++ [x] ++ ·) <$> manyUpTo more item n
      else pure xs := by
  rw [manyUpTo, map_bind]
  refine congrArg (more >>= ·) (funext fun found => ?_)
  cases found with
  | false => simp
  | true => simp [map_bind]

/-- Enough rounds are as good as no limit. -/
theorem Loop.Runs.manyUpTo_eq (h : (itemLoop more item).Runs xs p n result) {rounds : Nat}
    (hrounds : n < rounds) : ((xs ++ ·) <$> manyUpTo more item rounds) p = result := by
  induction h generalizing rounds with
  | stop hnext =>
    obtain ⟨rounds, rfl⟩ := Nat.exists_eq_add_of_lt hrounds
    rw [map_manyUpTo_succ, EStateM.bind_of_ok (next_itemLoop_eq_ok_iff.mp hnext)]
    rfl
  | stuck hnext =>
    obtain ⟨rounds, rfl⟩ := Nat.exists_eq_add_of_lt hrounds
    rw [map_manyUpTo_succ, EStateM.bind_of_error (next_itemLoop_eq_error_iff.mp hnext)]
  | broken hnext hbody =>
    obtain ⟨rounds, rfl⟩ := Nat.exists_eq_add_of_lt hrounds
    rw [map_manyUpTo_succ, EStateM.bind_of_ok (next_itemLoop_eq_ok_iff.mp hnext)]
    exact EStateM.bind_of_error (body_itemLoop_eq_error_iff.mp hbody)
  | @again xs ys _ p q r n result hnext hbody _ ih =>
    obtain ⟨rounds, rfl⟩ := Nat.exists_eq_add_of_lt hrounds
    obtain ⟨x, hitem, rfl⟩ := body_itemLoop_eq_ok_iff.mp hbody
    rw [map_manyUpTo_succ, EStateM.bind_of_ok (next_itemLoop_eq_ok_iff.mp hnext)]
    -- the remaining rounds run with the item appended
    refine (EStateM.bind_of_ok hitem).trans (ih ?_)
    omega

/-- The parser counts the rounds that it allows by the lexemes that are left. -/
theorem Loop.Runs.many_eq (h : (itemLoop more item).Runs [] p n result)
    (hn : n ≤ p.upcoming.length) : many more item p = result := by
  have hrounds := h.manyUpTo_eq (Nat.lt_succ_of_le hn)
  simp only [List.nil_append, id_map'] at hrounds
  exact hrounds

end Many

/-! ### Items with commas between them

`commaSeparated item`, which parameters, arguments and items use. -/

/-- An item, and another one after each comma. The state tells whether one is due. -/
def listLoop (item : ParseM α) : Loop (List α × Bool) Unit (List α) where
  next s := return if s.2 then some () else none
  body s _ := do
    let x ← item
    return (s.1 ++ [x], ← accept .comma)
  finish s := s.1

section CommaSeparated

variable {item : ParseM α} {s s' : List α × Bool} {e : ParseError} {u : Unit}

/-- Whether an item is due is known from the comma that was taken or not. -/
theorem next_listLoop_eq_ok_iff {answer : Option Unit} :
    (listLoop item).next s p = .ok answer q ↔ s.2 = answer.isSome ∧ p = q := by
  simp only [listLoop, EStateM.pure_eq_ok_iff]
  refine and_congr_left fun _ => ?_
  rcases s with ⟨xs, _ | _⟩ <;> cases answer <;> simp

/-- A round is an item and, if there is one, the comma after it. -/
theorem body_listLoop_eq_ok_iff :
    (listLoop item).body s u p = .ok s' q ↔
      ∃ x r found, item p = .ok x r ∧ accept .comma r = .ok found q ∧ (s.1 ++ [x], found) = s' := by
  simp only [listLoop, EStateM.bind_eq_ok_iff, EStateM.pure_eq_ok_iff]
  constructor
  · rintro ⟨x, r, hitem, found, t, hcomma, rfl, rfl⟩
    exact ⟨x, r, found, hitem, hcomma, rfl⟩
  · rintro ⟨x, r, found, hitem, hcomma, rfl⟩
    exact ⟨x, r, hitem, found, q, hcomma, rfl, rfl⟩

/-- A round fails in its item or in the look for a comma. -/
theorem body_listLoop_eq_error_iff :
    (listLoop item).body s u p = .error e q ↔
      item p = .error e q ∨ ∃ x r, item p = .ok x r ∧ accept .comma r = .error e q := by
  simp only [listLoop, EStateM.bind_eq_error_iff]
  refine or_congr_right (exists_congr fun x => exists_congr fun r => and_congr_right fun _ => ?_)
  constructor
  · rintro (hcomma | ⟨found, t, -, hpure⟩)
    · exact hcomma
    · cases hpure
  · exact .inl

/-- Items behind those that are there already: one round. -/
theorem map_commaSeparatedUpTo_succ (xs : List α) (n : Nat) :
    (xs ++ ·) <$> commaSeparatedUpTo item (n + 1) = item >>= fun x => accept .comma >>= fun found =>
      if found then (xs ++ [x] ++ ·) <$> commaSeparatedUpTo item n else pure (xs ++ [x]) := by
  rw [commaSeparatedUpTo, map_bind]
  refine congrArg (item >>= ·) (funext fun x => ?_)
  rw [map_bind]
  refine congrArg (accept .comma >>= ·) (funext fun found => ?_)
  cases found with
  | false => simp
  | true => simp

/-- Enough rounds are as good as no limit. If no item is due, the items are complete. -/
theorem Loop.Runs.commaSeparatedUpTo_eq (h : (listLoop item).Runs s p n result) :
    (s.2 = false → result = .ok s.1 p) ∧ (s.2 = true → ∀ rounds, n ≤ rounds →
      ((s.1 ++ ·) <$> commaSeparatedUpTo item rounds) p = result) := by
  induction h with
  | stop hnext =>
    obtain ⟨hdue, rfl⟩ := next_listLoop_eq_ok_iff.mp hnext
    refine ⟨fun _ => rfl, fun hs => ?_⟩
    rw [hdue] at hs
    cases hs
  | stuck hnext => cases hnext
  | broken hnext hbody =>
    obtain ⟨hdue, rfl⟩ := next_listLoop_eq_ok_iff.mp hnext
    refine ⟨fun hs => by simp [hdue] at hs, fun _ rounds hrounds => ?_⟩
    obtain ⟨rounds, rfl⟩ := Nat.exists_eq_add_of_le' hrounds
    rw [map_commaSeparatedUpTo_succ]
    rcases body_listLoop_eq_error_iff.mp hbody with hitem | ⟨x, t, hitem, hcomma⟩
    · exact EStateM.bind_of_error hitem
    · exact (EStateM.bind_of_ok hitem).trans (EStateM.bind_of_error hcomma)
  | again hnext hbody _ ih =>
    obtain ⟨hdue, rfl⟩ := next_listLoop_eq_ok_iff.mp hnext
    refine ⟨fun hs => by simp [hdue] at hs, fun _ rounds hrounds => ?_⟩
    obtain ⟨rounds, rfl⟩ := Nat.exists_eq_add_of_le' (Nat.le_of_add_left_le hrounds)
    obtain ⟨x, t, found, hitem, hcomma, rfl⟩ := body_listLoop_eq_ok_iff.mp hbody
    rw [map_commaSeparatedUpTo_succ]
    refine (EStateM.bind_of_ok hitem).trans ((EStateM.bind_of_ok hcomma).trans ?_)
    -- without a comma no further item is due, and the loop stops where this round ended
    cases found with
    | false => exact (ih.1 rfl).symm
    | true => exact ih.2 rfl rounds (by omega)

/-- The parser begins with an item that is due, and allows one round more than lexemes are left. -/
theorem Loop.Runs.commaSeparated_eq (h : (listLoop item).Runs ([], true) p n result)
    (hn : n ≤ p.upcoming.length + 1) : commaSeparated item p = result := by
  have hrounds := h.commaSeparatedUpTo_eq.2 rfl _ hn
  simp only [List.nil_append, id_map'] at hrounds
  exact hrounds

end CommaSeparated

/-! ### Operators after an expression

`climb`, whose state is the number of levels and the expression so far. -/

/-- While an operator follows that binds tightly enough, it is folded into the expression, which
takes a level of nesting each time. -/
def operatorLoop (precedence : Nat) : Loop (Nat × Expr) Continuation Expr where
  next _ := continuation? precedence
  body s c :=
    match s.1 with
    | 0 => fail .tooDeep
    | levels + 1 => do return (levels, ← extend (expression levels) s.2 c)
  finish s := s.2

/-- Climbing is one round and, from what it leaves, climbing again. -/
theorem climb_eq_bind (levels precedence : Nat) (left : Expr) :
    climb levels precedence left = continuation? precedence >>= fun
      | none => pure left
      | some c => (operatorLoop precedence).body (levels, left) c >>= fun s =>
        climb s.1 precedence s.2 := by
  cases levels with
  | zero =>
    rw [climb]
    refine congrArg (continuation? precedence >>= ·) (funext fun answer => ?_)
    cases answer with
    | none => rfl
    | some c => rfl
  | succ levels =>
    rw [climb]
    refine congrArg (continuation? precedence >>= ·) (funext fun answer => ?_)
    cases answer with
    | none => rfl
    | some c => simp only [operatorLoop, bind_assoc, pure_bind]

/-- The number of levels bounds the rounds of a climb by itself, so no other number is needed. -/
theorem Loop.Runs.climb_eq {precedence : Nat} {s : Nat × Expr}
    {result : EStateM.Result ParseError Parser Expr}
    (h : (operatorLoop precedence).Runs s p n result) : climb s.1 precedence s.2 p = result := by
  induction h with
  | stop hnext =>
    rw [climb_eq_bind]
    exact EStateM.bind_of_ok hnext
  | stuck hnext =>
    rw [climb_eq_bind]
    exact EStateM.bind_of_error hnext
  | broken hnext hbody =>
    rw [climb_eq_bind]
    exact (EStateM.bind_of_ok hnext).trans (EStateM.bind_of_error hbody)
  | again hnext hbody _ ih =>
    rw [climb_eq_bind]
    exact (EStateM.bind_of_ok hnext).trans ((EStateM.bind_of_ok hbody).trans ih)

end WasmCompiler.Parse
