import WasmCompiler.Proofs.Tree.Facing
import WasmCompiler.Proofs.Tree.Rendering

/-!
# Reading what was written

`Reads deep m before Q after` says how the parser `m` may end at tokens of the kinds `before`: it
gives something with `Q` at those of the kinds `after` and has put the string literals between
into the pool, or it fails because the nesting is too deep, which `deep` has to admit, or because
the pool has no room for the literals that are still to come. It never fails in another way.

As for `Takes`, there is one lemma for each way to put parsers together. Repetitions relate what
is read to the list that was written, element by element.

* `Reads.bind` chains two parsers, and the second has to place the literals that the first has left;
* `Reads.many`, `Reads.commaSeparated` and `reads_otherElements` are the three kinds of repetition;
* `isReadType_of_isWritable` applies them to annotations, the first kind of tree that is read back.
-/

namespace WasmCompiler

/-! ### String literals among tokens

The pool that a parser ends with is the one with all the literals it has read. -/

/-- The literal that a token is, if it is a string. -/
def TokenKind.text? : TokenKind → Option String
  | .string text => some text
  | _ => none

/-- The string literals among some tokens. -/
def TokenKind.texts (kinds : List TokenKind) : List String :=
  kinds.filterMap TokenKind.text?

/-- The pool with some literals in it, if it has room for all of them. -/
def StringPool.internAll? (pool : StringPool) : List String → Option StringPool
  | [] => some pool
  | text :: texts =>
    match pool.intern? text with
    | some (_, pool') => pool'.internAll? texts
    | none => none

/-- The tokens that a parser is at are the current one and some that are still to come. -/
theorem Parser.Faces.length_le {p : Parser} {kinds : List TokenKind} (h : p.Faces kinds) :
    kinds.length ≤ p.upcoming.length + 1 := by
  simpa using List.IsPrefix.length_le h

namespace Parse

open TokenKind (texts commas otherElements elements braced announced)

variable {α β γ : Type} {deep : Prop} {Q : α → Prop} {R : β → Prop} {kind : TokenKind}
  {kinds before middle after rest : List TokenKind}

/-! ### How reading ends

The outcome of a parser on tokens that were written for something. -/

/-- A result of a parser that does not fail but for the reasons that are admitted: `deep`, and
that there is no pool with all literals. -/
def Outcome (deep : Prop) (pool : Option StringPool) (Q : α → Prop) (after : List TokenKind) :
    EStateM.Result ParseError Parser α → Prop
  | .ok x p => Q x ∧ p.Faces after ∧ p.strings.internAll? (texts after) = pool
  | .error (.malformed .tooDeep _) _ => deep
  | .error (.malformed .stringsTooLarge _) _ => pool = none
  | .error _ _ => False

/-- The two ways to fail, spelled out. -/
theorem Outcome.error_cases {pool : Option StringPool} {e : ParseError} {p : Parser}
    (h : Outcome deep pool Q before (.error e p)) :
    (∃ location, e = .malformed .tooDeep location ∧ deep) ∨
      ∃ location, e = .malformed .stringsTooLarge location ∧ pool = none := by
  cases e with
  | malformed what location =>
    cases what with
    | tooDeep => exact .inl ⟨location, rfl, h⟩
    | stringsTooLarge => exact .inr ⟨location, rfl, h⟩
    | assignmentTarget | callee => exact h.elim
  | unexpected | lex => exact h.elim

/-- A failure does not depend on what would have been read. -/
theorem Outcome.error {pool : Option StringPool} {e : ParseError} {p : Parser}
    (h : Outcome deep pool Q before (.error e p)) : Outcome deep pool R after (.error e p) := by
  obtain ⟨location, rfl, hdeep⟩ | ⟨location, rfl, hpool⟩ := h.error_cases
  · exact hdeep
  · exact hpool

def Reads (deep : Prop) (m : ParseM α) (before : List TokenKind) (Q : α → Prop)
    (after : List TokenKind) : Prop :=
  ∀ p : Parser, p.Faces before → Outcome deep (p.strings.internAll? (texts before)) Q after (m p)

/-- What takes no string literal leaves all of them to come. -/
theorem Takes.reads {m : ParseM α} (hm : Takes m before Q after)
    (htexts : texts before = texts after) : Reads deep m before Q after := by
  intro p hp
  obtain ⟨x, p', hx, hQ, hp', hstrings⟩ := hm p hp
  rw [hx]
  exact ⟨hQ, hp', by rw [hstrings, htexts]⟩

theorem reads_pure {x : α} (h : Q x) : Reads deep (pure x) kinds Q kinds :=
  (takes_pure h).reads rfl

/-- The literals between are split at the middle, and a failure of either part is one of the
whole. -/
theorem Reads.bind {m : ParseM α} {f : α → ParseM β} (hm : Reads deep m before Q middle)
    (hf : ∀ x, Q x → Reads deep (f x) middle R after) : Reads deep (m >>= f) before R after := by
  intro p hp
  have hfirst := hm p hp
  show Outcome _ _ _ _ (EStateM.bind m f p)
  rw [EStateM.bind]
  cases hrun : m p with
  | ok x p' =>
    rw [hrun] at hfirst
    obtain ⟨hQ, hp', hpool⟩ := hfirst
    rw [← hpool]
    exact hf x hQ p' hp'
  | error e p' =>
    rw [hrun] at hfirst
    exact hfirst.error

theorem Reads.weaken {Q' : α → Prop} {m : ParseM α} (hm : Reads deep m before Q after)
    (h : ∀ x, Q x → Q' x) : Reads deep m before Q' after := by
  intro p hp
  have hresult := hm p hp
  cases hrun : m p with
  | ok x p' =>
    rw [hrun] at hresult
    exact ⟨h x hresult.1, hresult.2⟩
  | error e p' =>
    rw [hrun] at hresult
    exact hresult.error

/-- What is said of the result is said of its image. -/
theorem Reads.map {m : ParseM α} {f : α → β} (hm : Reads deep m before Q after)
    (hf : ∀ x, Q x → R (f x)) : Reads deep (f <$> m) before R after := by
  rw [map_eq_pure_bind]
  exact hm.bind fun x hx => reads_pure (hf x hx)

theorem reads_tooDeep (h : deep) : Reads deep (fail .tooDeep) before Q after :=
  fun _ _ => h

/-! ### Tokens

Single tokens, none of them a string. -/

theorem reads_peek : Reads deep peek (kind :: rest) (·.kind = kind) (kind :: rest) :=
  takes_peek.reads rfl

theorem reads_check (wanted : TokenKind) :
    Reads deep (check wanted) (kind :: rest) (· = decide (kind = wanted)) (kind :: rest) :=
  (takes_check wanted).reads rfl

/-- A token that is not a string and after which there are others. -/
theorem reads_advance (htext : kind.text? = none) (hrest : rest ≠ []) :
    Reads deep advance (kind :: rest) (·.kind = kind) rest := by
  obtain ⟨next, rest, rfl⟩ := List.exists_cons_of_ne_nil hrest
  exact takes_advance.reads (List.filterMap_cons_none htext)

theorem reads_expect (htext : kind.text? = none) (hrest : rest ≠ []) :
    Reads deep (expect kind) (kind :: rest) (·.kind = kind) rest := by
  obtain ⟨next, rest, rfl⟩ := List.exists_cons_of_ne_nil hrest
  exact takes_expect.reads (List.filterMap_cons_none htext)

theorem reads_expectName {name : String} (wanted : Wanted) (hrest : rest ≠ []) :
    Reads deep (expectName wanted) (.identifier name :: rest) (·.1 = name) rest := by
  obtain ⟨next, rest, rfl⟩ := List.exists_cons_of_ne_nil hrest
  exact (takes_expectName wanted).reads rfl

theorem reads_accept (htext : kind.text? = none) (hrest : rest ≠ []) :
    Reads deep (accept kind) (kind :: rest) (· = true) rest :=
  (reads_check kind).bind fun _ hfound => by
    rw [hfound, if_pos (by simp)]
    exact (reads_advance htext hrest).bind fun _ _ => reads_pure rfl

/-- The token that may stand there does not, and the one that does stays. -/
theorem reads_accept_other {wanted : TokenKind} (h : kind ≠ wanted) :
    Reads deep (accept wanted) (kind :: rest) (· = false) (kind :: rest) :=
  (takes_accept_other h).reads rfl

/-! ### Repetitions

Loops over what was written for the members of a list. -/

/-- What follows an item of a list: a comma or the token that ends the list. -/
def EndsItem (close : TokenKind) (rest : List TokenKind) : Prop :=
  rest.head? = some .comma ∨ rest.head? = some close

theorem EndsItem.ne_nil {close : TokenKind} (h : EndsItem close rest) : rest ≠ [] := by
  rintro rfl
  simp [EndsItem] at h

section Lists

variable {norm : α → γ} {write front : α → List TokenKind} {item : ParseM α} {xs : List α}

/-- Items that `more` finds one after another, and that `item` reads if what follows them is in
order. In front of an item there may be tokens that `more` takes. -/
theorem Reads.manyUpTo {more : ParseM Bool} (Follows : List TokenKind → Prop)
    (hfront : ∀ x ∈ xs, ∀ rest, Follows (front x ++ rest)) (hbefore : Follows before)
    (hmore : ∀ x ∈ xs, ∀ rest, Follows rest →
      Reads deep more (front x ++ rest) (· = true) (write x ++ rest))
    (hitem : ∀ x ∈ xs, ∀ rest, Follows rest →
      Reads deep item (write x ++ rest) (norm · = norm x) rest)
    (hdone : Reads deep more before (· = false) after) {n : Nat} (hn : xs.length < n) :
    Reads deep (manyUpTo more item n) (xs.flatMap front ++ before)
      (·.map norm = xs.map norm) after := by
  induction xs generalizing n with
  | nil =>
    obtain ⟨n, rfl⟩ := Nat.exists_eq_succ_of_ne_zero (Nat.ne_of_gt hn)
    refine hdone.bind fun _ hmore => ?_
    rw [hmore, if_neg (by decide)]
    exact reads_pure rfl
  | cons x xs ih =>
    obtain ⟨n, rfl⟩ := Nat.exists_eq_succ_of_ne_zero (Nat.ne_of_gt (Nat.zero_lt_of_lt hn))
    rw [List.forall_mem_cons] at hfront hmore hitem
    have hrest : Follows (xs.flatMap front ++ before) := by
      cases xs with
      | nil => exact hbefore
      | cons y ys =>
        rw [List.flatMap_cons, List.append_assoc]
        exact hfront.2 y List.mem_cons_self _
    rw [List.flatMap_cons, List.append_assoc]
    refine (hmore.1 _ hrest).bind fun _ hfound => ?_
    rw [hfound, if_pos rfl]
    refine (hitem.1 _ hrest).bind fun y hy => ?_
    refine (ih hfront.2 hmore.2 hitem.2 (Nat.lt_of_succ_lt_succ hn)).bind fun ys hys => ?_
    exact reads_pure (by rw [List.map_cons, List.map_cons, hy, hys])

/-- No part is empty, so there are no more parts than tokens. -/
theorem length_le_length_flatMap (h : ∀ x ∈ xs, front x ≠ []) :
    xs.length ≤ (xs.flatMap front).length := by
  induction xs with
  | nil => simp
  | cons x xs ih =>
    rw [List.forall_mem_cons] at h
    have hx := List.length_pos_iff.mpr h.1
    have hxs := ih h.2
    rw [List.flatMap_cons, List.length_append, List.length_cons]
    omega

/-- The number of lexemes left is enough rounds, as each item takes a token. -/
theorem Reads.many {more : ParseM Bool} (Follows : List TokenKind → Prop)
    (hfront : ∀ x ∈ xs, ∀ rest, Follows (front x ++ rest)) (hbefore : Follows before)
    (hmore : ∀ x ∈ xs, ∀ rest, Follows rest →
      Reads deep more (front x ++ rest) (· = true) (write x ++ rest))
    (hitem : ∀ x ∈ xs, ∀ rest, Follows rest →
      Reads deep item (write x ++ rest) (norm · = norm x) rest)
    (hdone : Reads deep more before (· = false) after) (hne : ∀ x ∈ xs, front x ≠ [])
    (hend : before ≠ []) :
    Reads deep (many more item) (xs.flatMap front ++ before) (·.map norm = xs.map norm) after := by
  intro p hp
  have hitems := length_le_length_flatMap hne
  have hlast := List.length_pos_iff.mpr hend
  have hrounds := hp.length_le
  rw [List.length_append] at hrounds
  exact Reads.manyUpTo Follows hfront hbefore hmore hitem hdone (by omega) p hp

/-- Items with commas between them, up to a token that is no comma. -/
theorem Reads.commaSeparatedUpTo {close : TokenKind} {x : α} (hclose : close ≠ .comma)
    (hitem : ∀ y ∈ x :: xs, ∀ rest, EndsItem close rest →
      Reads deep item (write y ++ rest) (norm · = norm y) rest)
    {n : Nat} (hn : xs.length < n) :
    Reads deep (commaSeparatedUpTo item n) (commas ((x :: xs).map write) ++ close :: rest)
      (·.map norm = (x :: xs).map norm) (close :: rest) := by
  induction xs generalizing x n with
  | nil =>
    obtain ⟨n, rfl⟩ := Nat.exists_eq_succ_of_ne_zero (Nat.ne_of_gt hn)
    rw [List.map_singleton, commas, List.flatMap_nil, List.append_nil]
    refine (hitem x List.mem_cons_self _ (.inr rfl)).bind fun y hy => ?_
    refine (reads_accept_other hclose).bind fun _ hcomma => ?_
    rw [hcomma, if_neg (by decide)]
    exact reads_pure (by rw [List.map_singleton, List.map_singleton, hy])
  | cons x' xs ih =>
    obtain ⟨n, rfl⟩ := Nat.exists_eq_succ_of_ne_zero (Nat.ne_of_gt (Nat.zero_lt_of_lt hn))
    have hcommas : commas ((x :: x' :: xs).map write) ++ close :: rest =
        write x ++ .comma :: (commas ((x' :: xs).map write) ++ close :: rest) := by
      simp [commas]
    rw [hcommas]
    refine (hitem x List.mem_cons_self _ (.inl rfl)).bind fun y hy => ?_
    refine (reads_accept rfl (by simp)).bind fun _ hcomma => ?_
    rw [hcomma, if_pos rfl]
    have hothers := ih (x := x') (fun y hy => hitem y (List.mem_cons_of_mem _ hy))
      (Nat.lt_of_succ_lt_succ hn)
    refine hothers.bind fun ys hys => ?_
    exact reads_pure (by rw [List.map_cons, hy, hys, List.map_cons (l := x' :: xs)])

/-- There are no more items in a list than tokens. -/
theorem length_le_length_commas (hwrite : ∀ x ∈ xs, write x ≠ []) :
    xs.length ≤ (commas (xs.map write)).length := by
  cases xs with
  | nil => simp
  | cons x xs =>
    have hx := List.length_pos_iff.mpr (hwrite x List.mem_cons_self)
    have hxs : (xs.map write).length ≤ ((xs.map write).flatMap (TokenKind.comma :: ·)).length :=
      length_le_length_flatMap (by simp)
    rw [List.length_map] at hxs
    rw [List.map_cons, commas, List.length_append, List.length_cons]
    omega

/-- The lexemes that are left are enough rounds for the items and the commas. -/
theorem Reads.commaSeparated {close : TokenKind} (hclose : close ≠ .comma) (hxs : xs ≠ [])
    (hwrite : ∀ x ∈ xs, write x ≠ [])
    (hitem : ∀ x ∈ xs, ∀ rest, EndsItem close rest →
      Reads deep item (write x ++ rest) (norm · = norm x) rest) :
    Reads deep (commaSeparated item) (commas (xs.map write) ++ close :: rest)
      (·.map norm = xs.map norm) (close :: rest) := by
  intro p hp
  obtain ⟨x, xs, rfl⟩ := List.exists_cons_of_ne_nil hxs
  have hcommas := length_le_length_commas hwrite
  have hrounds := hp.length_le
  rw [List.length_append, List.length_cons] at hrounds
  rw [List.length_cons] at hcommas
  exact Reads.commaSeparatedUpTo hclose hitem (by omega) p hp

/-- A list that may be empty, up to a token with which no item begins. -/
theorem Reads.commaList {close : TokenKind} {f : List α → ParseM β} (hclose : close ≠ .comma)
    (hwrite : ∀ x ∈ xs, ∃ first others, write x = first :: others ∧ first ≠ close)
    (hitem : ∀ x ∈ xs, ∀ rest, EndsItem close rest →
      Reads deep item (write x ++ rest) (norm · = norm x) rest)
    (hf : ∀ ys, ys.map norm = xs.map norm → Reads deep (f ys) (close :: rest) R after) :
    Reads deep (do
        let ys ← if ← check close then pure [] else Parse.commaSeparated item
        f ys) (commas (xs.map write) ++ close :: rest) R after := by
  cases xs with
  | nil =>
    refine (reads_check close).bind fun _ hcheck => ?_
    rw [hcheck, if_pos (by simp)]
    exact (reads_pure (Q := (· = [])) rfl).bind fun ys hys => hf ys (by rw [hys])
  | cons x xs =>
    obtain ⟨first, others, hfirst, hopen⟩ := hwrite x List.mem_cons_self
    have hcommas : commas ((x :: xs).map write) = first :: (others ++
        (xs.map write).flatMap (TokenKind.comma :: ·)) := by
      rw [List.map_cons, commas, hfirst, List.cons_append]
    have hne : ∀ y ∈ x :: xs, write y ≠ [] := by
      intro y hy
      obtain ⟨first, others, hfirst, -⟩ := hwrite y hy
      simp [hfirst]
    -- there is at least one item, so the list is not taken to be empty
    have hitems : Reads deep (Parse.commaSeparated item)
        (commas ((x :: xs).map write) ++ close :: rest)
        (·.map norm = (x :: xs).map norm) (close :: rest) :=
      Reads.commaSeparated hclose (by simp) hne hitem
    rw [hcommas] at hitems ⊢
    refine (reads_check close).bind fun _ hcheck => ?_
    rw [hcheck, if_neg (by simpa using hopen)]
    exact hitems.bind hf

/-- Something that may be missing is there if the token that announces it is. -/
theorem Reads.announced {mark next : TokenKind} {x : Option α} {f : Option α → ParseM β}
    (norm : α → γ) (htext : mark.text? = none) (hnext : next ≠ mark)
    (hitem : ∀ a ∈ x, Reads deep item (write a ++ next :: rest) (norm · = norm a) (next :: rest))
    (hf : ∀ y, y.map norm = x.map norm → Reads deep (f y) (next :: rest) R after) :
    Reads deep (do
        let y ← if ← accept mark then some <$> item else pure none
        f y) (announced mark write x ++ next :: rest) R after := by
  cases x with
  | none =>
    refine (reads_accept_other hnext).bind fun _ hmark => ?_
    rw [hmark, if_neg (by decide)]
    exact (reads_pure (Q := (· = none)) rfl).bind fun y hy => hf y (by rw [hy])
  | some a =>
    refine (reads_accept htext (by simp)).bind fun _ hmark => ?_
    rw [hmark, if_pos rfl]
    have hsome : Reads deep (some <$> item) (write a ++ next :: rest)
        (·.map norm = (some a).map norm) (next :: rest) :=
      (hitem a rfl).map fun y hy => by rw [Option.map_some, Option.map_some, hy]
    exact hsome.bind hf

/-- A comma is taken, and whether an element follows is told by the bracket behind it. -/
theorem reads_anotherElement :
    Reads deep anotherElement (.comma :: kind :: rest) (· = decide (kind ≠ .rparen))
      (kind :: rest) :=
  (reads_accept rfl (by simp)).bind fun _ hfound => by
    rw [hfound, if_pos rfl]
    exact (reads_check _).bind fun _ hclose => reads_pure (by rw [hclose]; simp)

/-- Without a comma the tuple ends. -/
theorem reads_anotherElement_none :
    Reads deep anotherElement (.rparen :: rest) (· = false) (.rparen :: rest) :=
  (reads_accept_other (by decide)).bind fun _ hfound => by
    rw [hfound, if_neg (by decide)]
    exact reads_pure rfl

/-- The elements of a tuple after the first. If there are none, the comma is taken. -/
theorem reads_otherElements
    (hwrite : ∀ x ∈ xs, ∃ first others, write x = first :: others ∧ first ≠ .rparen)
    (hitem : ∀ x ∈ xs, ∀ rest, EndsItem .rparen rest →
      Reads deep item (write x ++ rest) (norm · = norm x) rest) :
    Reads deep (many anotherElement item) (otherElements (xs.map write) ++ .rparen :: rest)
      (·.map norm = xs.map norm) (.rparen :: rest) := by
  have hmore : ∀ x ∈ xs, ∀ rest, EndsItem .rparen rest →
      Reads deep anotherElement (.comma :: write x ++ rest) (· = true) (write x ++ rest) := by
    intro x hx rest _
    obtain ⟨first, others, hfirst, hopen⟩ := hwrite x hx
    rw [hfirst]
    exact reads_anotherElement.weaken fun _ h => by rw [h]; simpa using hopen
  have hfront : ∀ x ∈ xs, ∀ rest, EndsItem .rparen (.comma :: write x ++ rest) :=
    fun _ _ _ => .inl rfl
  -- without other elements the comma before the parenthesis is the trailing one of a single element
  cases xs with
  | nil =>
    exact Reads.many (EndsItem .rparen) hfront (.inl rfl) hmore hitem reads_anotherElement
      (by simp) (by simp)
  | cons x xs =>
    have hothers : otherElements ((x :: xs).map write) =
        (x :: xs).flatMap fun x => .comma :: write x := by
      rw [List.map_cons, otherElements, ← List.map_cons, List.flatMap_map]
    rw [hothers]
    exact Reads.many (EndsItem .rparen) hfront (.inr rfl) hmore hitem reads_anotherElement_none
      (by simp) (by simp)

end Lists

section Parts

variable {part : List TokenKind} {parts : List (List TokenKind)}

/-- An item is no longer than the list it stands in. -/
theorem length_le_of_mem_commas (h : part ∈ parts) : part.length ≤ (commas parts).length := by
  cases parts with
  | nil => cases h
  | cons first others =>
    rw [commas, List.length_append]
    rcases List.mem_cons.mp h with rfl | h
    · omega
    · have hmem := List.mem_map_of_mem (f := (TokenKind.comma :: ·)) h
      have hle := (List.sublist_flatten_of_mem hmem).length_le
      rw [← List.flatMap_def, List.length_cons] at hle
      omega

/-- A tuple has the tokens of a list and perhaps one more comma. -/
theorem length_le_of_mem_elements (h : part ∈ parts) : part.length ≤ (elements parts).length := by
  refine Nat.le_trans (length_le_of_mem_commas h) ?_
  match parts with
  | [] => exact Nat.le_refl _
  | [first] => simp [commas, elements]
  | first :: second :: others => exact Nat.le_refl _

/-- A comma follows the first element of a tuple. -/
theorem exists_otherElements_eq_cons (parts : List (List TokenKind)) :
    ∃ others, otherElements parts = .comma :: others := by
  cases parts <;> exact ⟨_, rfl⟩

end Parts

/-! ### Types

Annotations and what they are part of. -/

/-- An annotation is not empty and does not begin with the bracket that ends a tuple. -/
theorem exists_typeName_kinds_eq_cons (t : TypeName) :
    ∃ first others, t.kinds = first :: others ∧ first ≠ .rparen := by
  cases t <;> exact ⟨_, _, rfl, by simp⟩

/-- Whatever comes after an annotation, as many levels are enough as it has tokens. -/
def IsReadType (deep : Prop) (t : TypeName) : Prop :=
  ∀ n rest, t.kinds.length ≤ n → rest ≠ [] →
    Reads deep (typeNameUpTo n) (t.kinds ++ rest) (· = t) rest

theorem isReadType_named (name : String) : IsReadType deep (.named name) := by
  intro n rest hn hrest
  obtain ⟨n, rfl⟩ := Nat.exists_eq_succ_of_ne_zero (Nat.ne_of_gt hn)
  refine reads_peek.bind fun token htoken => ?_
  rw [htoken]
  exact (reads_advance rfl hrest).bind fun _ _ => reads_pure rfl

/-- The element has two tokens less, and one level less is enough for it. -/
theorem isReadType_array {element : TypeName} (h : IsReadType deep element) :
    IsReadType deep (.array element) := by
  intro n rest hn hrest
  simp only [TypeName.kinds, List.length_cons, List.length_append] at hn
  obtain ⟨n, rfl⟩ := Nat.exists_eq_succ_of_ne_zero (Nat.ne_of_gt (Nat.zero_lt_of_lt hn))
  rw [TypeName.kinds, List.cons_append, List.append_assoc, List.singleton_append]
  refine reads_peek.bind fun token htoken => ?_
  rw [htoken]
  refine (reads_advance rfl (by simp)).bind fun _ _ => ?_
  refine (h n (.rbracket :: rest) (by omega) (by simp)).bind fun t ht => ?_
  exact (reads_expect rfl hrest).bind fun _ _ => reads_pure (by rw [ht])

/-- The elements of a tuple have fewer tokens, and fewer levels are enough for them. -/
theorem isReadType_tuple {first : TypeName} {others : List TypeName}
    (h : ∀ t ∈ first :: others, IsReadType deep t) :
    IsReadType deep (.tuple (first :: others)) := by
  intro n rest hn hrest
  rw [TypeName.kinds, TypeName.kindsAll_eq_map, List.length_cons, List.length_append] at hn
  obtain ⟨n, rfl⟩ := Nat.exists_eq_succ_of_ne_zero (Nat.ne_of_gt (Nat.zero_lt_of_lt hn))
  -- the parenthesis takes a level, and one level fewer is enough for the elements
  have hshort (t : TypeName) (ht : t ∈ first :: others) : t.kinds.length ≤ n := by
    have := length_le_of_mem_elements (List.mem_map_of_mem (f := TypeName.kinds) ht)
    omega
  have hmore : Reads deep (many anotherElement (typeNameUpTo n))
      (otherElements (others.map TypeName.kinds) ++ .rparen :: rest)
      (·.map id = others.map id) (.rparen :: rest) := by
    refine reads_otherElements (fun t _ => exists_typeName_kinds_eq_cons t) fun t ht rest hend => ?_
    have ht := List.mem_cons_of_mem first ht
    exact h t ht n rest (hshort t ht) hend.ne_nil
  obtain ⟨ks, hks⟩ := exists_otherElements_eq_cons (others.map TypeName.kinds)
  rw [TypeName.kinds, TypeName.kindsAll_eq_map, List.map_cons, elements, List.cons_append,
    List.append_assoc, List.append_assoc, List.singleton_append]
  refine reads_peek.bind fun token htoken => ?_
  rw [htoken]
  refine (reads_advance rfl (by simp)).bind fun _ _ => ?_
  have hfirst := List.mem_cons_self (a := first) (l := others)
  refine (h first hfirst n _ (hshort first hfirst) (by simp)).bind fun t ht => ?_
  rw [hks] at hmore ⊢
  refine (reads_check _).bind fun _ hcomma => ?_
  rw [hcomma, if_pos (by simp)]
  refine hmore.bind fun ts hts => ?_
  refine (reads_expect rfl hrest).bind fun _ _ => reads_pure ?_
  rw [List.map_id, List.map_id] at hts
  rw [ht, hts]

mutual

/-- By induction over the annotation. -/
theorem isReadType_of_isWritable : (t : TypeName) → t.isWritable → IsReadType deep t
  | .named name, _ => isReadType_named name
  | .array element, h => isReadType_array (isReadType_of_isWritable element h)
  | .tuple [], h => by cases h
  | .tuple (first :: others), h =>
    isReadType_tuple (isReadType_of_mem (first :: others) (Bool.and_eq_true_iff.mp h).2)

theorem isReadType_of_mem :
    (ts : List TypeName) → TypeName.allWritable ts → ∀ t ∈ ts, IsReadType deep t
  | [], _ => by simp
  | t :: ts, h => by
    obtain ⟨ht, hts⟩ := Bool.and_eq_true_iff.mp h
    exact List.forall_mem_cons.mpr ⟨isReadType_of_isWritable t ht, isReadType_of_mem ts hts⟩

end

/-- The parser of annotations takes as many levels as lexemes are left, which is enough. -/
theorem reads_typeName {t : TypeName} (ht : t.isWritable) (hrest : rest ≠ []) :
    Reads deep typeName (t.kinds ++ rest) (· = t) rest := by
  intro p hp
  have hrounds := hp.length_le
  rw [List.length_append] at hrounds
  exact isReadType_of_isWritable t ht _ rest (by omega) hrest p hp

theorem reads_field {f : Field} (hf : f.isWritable) (wanted : Wanted) (hrest : rest ≠ []) :
    Reads deep (field wanted) (f.kinds ++ rest) (·.unlocated = f.unlocated) rest := by
  refine (reads_expectName wanted (by simp)).bind fun name hname => ?_
  refine (reads_expect rfl (by simp [hrest])).bind fun _ _ => ?_
  refine (reads_typeName (Bool.and_eq_true_iff.mp hf).2 hrest).bind fun t ht => reads_pure ?_
  rw [hname, ht, Field.unlocated, Field.unlocated]

/-- A name, and an annotation if a colon follows. -/
theorem reads_binding {b : Binding} (hb : b.isWritable) {next : TokenKind} (hnext : next ≠ .colon) :
    Reads deep binding (b.kinds ++ next :: rest) (·.unlocated = b.unlocated) (next :: rest) := by
  simp only [Binding.isWritable, Bool.and_eq_true, Option.isNone_iff_eq_none,
    Option.all_eq_true] at hb
  refine (reads_expectName .variableName (by simp)).bind fun name hname => ?_
  refine Reads.announced id rfl hnext
    (fun t ht => reads_typeName (hb.1.2 t ht) (by simp)) fun declared hdeclared => reads_pure ?_
  have hdeclared : declared = b.declared := by simpa using hdeclared
  rw [hname, hdeclared, Binding.unlocated, Binding.unlocated, hb.2]

end Parse

end WasmCompiler
