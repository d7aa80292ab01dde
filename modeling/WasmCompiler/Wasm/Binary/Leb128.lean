/-!
# Integers of variable length

Seven bits to a byte, the lowest first; the top bit of a byte says that more follow. A signed
number ends as soon as the rest is the sign that the last byte shows. Both forms are the shortest
there are.

The readers give the number and the bytes after it. They undo the writers, whatever follows
(`readUnsigned_unsigned`, `readSigned_signed`). The first byte without its top bit is the last of a
number, so its size shows without reading it (`TakesNumber.endsWithin_iff`).
-/

namespace WasmCompiler.Wasm.Leb128

/-- The shortest unsigned form. -/
def unsigned (n : Nat) : List UInt8 :=
  if n < 128 then [.ofNat n]
  else .ofNat (n % 128 + 128) :: unsigned (n / 128)
termination_by n
decreasing_by omega

/-- The shortest signed form. -/
def signed (z : Int) : List UInt8 :=
  let low := (z % 128).toNat
  let rest := z / 128
  if (rest = 0 ∧ low < 64) ∨ (rest = -1 ∧ 64 ≤ low) then [.ofNat low]
  else .ofNat (low + 128) :: signed rest
termination_by z.natAbs
decreasing_by omega

/-- Reads an unsigned number. -/
def readUnsigned : List UInt8 → Option (Nat × List UInt8)
  | [] => none
  | b :: bs =>
    if b < 128 then some (b.toNat, bs)
    else do
      let (n, rest) ← readUnsigned bs
      some (b.toNat - 128 + 128 * n, rest)

/-- Reads a signed number. -/
def readSigned : List UInt8 → Option (Int × List UInt8)
  | [] => none
  | b :: bs =>
    if b < 64 then some (b.toNat, bs)
    else if b < 128 then some ((b.toNat : Int) - 128, bs)
    else do
      let (z, rest) ← readSigned bs
      some ((b.toNat : Int) - 128 + 128 * z, rest)

/-- Whether the number at the front of some bytes ends within the first few of them. -/
def endsWithin (count : Nat) (bytes : List UInt8) : Bool :=
  (bytes.take count).any (· < 128)

/-! ### Sizes -/

/-- The bytes that some others follow are those of one number. -/
inductive TakesNumber : List UInt8 → List UInt8 → Prop
  | last {b rest} (h : b < 128) : TakesNumber (b :: rest) rest
  | more {b bytes rest} (h : ¬b < 128) (hmore : TakesNumber bytes rest) :
    TakesNumber (b :: bytes) rest

/-- A number takes a byte at least. -/
theorem TakesNumber.length_lt {bytes rest : List UInt8} (h : TakesNumber bytes rest) :
    rest.length < bytes.length := by
  induction h with
  | last => exact Nat.lt_succ_self _
  | more _ _ ih => exact Nat.lt_succ_of_lt ih

/-- A number ends within as many bytes as it takes. -/
theorem TakesNumber.endsWithin_iff {bytes rest : List UInt8} (h : TakesNumber bytes rest)
    {count : Nat} : endsWithin count bytes ↔ bytes.length ≤ rest.length + count := by
  induction h generalizing count with
  | last h =>
    cases count with
    | zero => simp [endsWithin]
    | succ count =>
      rw [endsWithin, List.take_succ_cons, List.any_cons, decide_eq_true h]
      simp only [Bool.true_or, List.length_cons, true_iff]
      omega
  | @more b bytes rest h hmore ih =>
    have hlength := hmore.length_lt
    cases count with
    | zero =>
      -- no byte is looked at, and the number has at least one more than those behind it
      have hnone : ¬endsWithin 0 (b :: bytes) := Bool.false_ne_true
      exact iff_of_false hnone (Nat.not_le.mpr (Nat.lt_succ_of_lt hlength))
    | succ count =>
      rw [endsWithin, List.take_succ_cons, List.any_cons, decide_eq_false h, Bool.false_or,
        ← endsWithin, ih, List.length_cons]
      omega

/-- What is read as an unsigned number is one number. -/
theorem takesNumber_of_readUnsigned {bytes rest : List UInt8} {n : Nat}
    (h : readUnsigned bytes = some (n, rest)) : TakesNumber bytes rest := by
  induction bytes generalizing n with
  | nil => cases h
  | cons b bs ih =>
    rw [readUnsigned] at h
    split at h
    · rename_i hlast
      cases h
      exact .last hlast
    · rename_i hmore
      obtain ⟨⟨m, rest'⟩, htail, hvalue⟩ := Option.bind_eq_some_iff.mp h
      cases hvalue
      exact .more hmore (ih htail)

/-- What is read as a signed number is one number. -/
theorem takesNumber_of_readSigned {bytes rest : List UInt8} {z : Int}
    (h : readSigned bytes = some (z, rest)) : TakesNumber bytes rest := by
  induction bytes generalizing z with
  | nil => cases h
  | cons b bs ih =>
    rw [readSigned] at h
    split at h
    · rename_i hpositive
      cases h
      exact .last (UInt8.lt_trans hpositive (by decide))
    · split at h
      · rename_i hlast
        cases h
        exact .last hlast
      · rename_i hmore
        obtain ⟨⟨m, rest'⟩, htail, hvalue⟩ := Option.bind_eq_some_iff.mp h
        cases hvalue
        exact .more hmore (ih htail)

/-! ### Reading undoes writing -/

/-- An unsigned number is read back, and nothing after it is touched. -/
theorem readUnsigned_unsigned (n : Nat) (rest : List UInt8) :
    readUnsigned (unsigned n ++ rest) = some (n, rest) := by
  fun_induction unsigned n with
  | case1 n h =>
    -- the last byte has its top bit clear
    have hn : (UInt8.ofNat n).toNat = n := UInt8.toNat_ofNat_of_lt' (show _ < 256 by omega)
    have hlt : UInt8.ofNat n < 128 := by
      rw [UInt8.lt_iff_toNat_lt, hn]
      exact h
    simp [readUnsigned, hlt, hn]
  | case2 n h ih =>
    -- the top bit of this byte sends the reader on to the rest
    have hn : (UInt8.ofNat (n % 128 + 128)).toNat = n % 128 + 128 :=
      UInt8.toNat_ofNat_of_lt' (show _ < 256 by omega)
    have hlt : ¬ UInt8.ofNat (n % 128 + 128) < 128 := by
      rw [UInt8.lt_iff_toNat_lt, hn]
      simp
    have hsum : n % 128 + 128 * (n / 128) = n := Nat.mod_add_div n 128
    rw [List.cons_append, readUnsigned, if_neg hlt, ih, hn]
    simp [hsum]

/-- A signed number is read back, and nothing after it is touched. -/
theorem readSigned_signed (z : Int) (rest : List UInt8) :
    readSigned (signed z ++ rest) = some (z, rest) := by
  fun_induction signed z with
  | case1 z low tail h =>
    have hlow : low < 128 := by omega
    have hn : (UInt8.ofNat low).toNat = low := UInt8.toNat_ofNat_of_lt' (show _ < 256 by omega)
    rcases h with ⟨h0, h1⟩ | ⟨h0, h1⟩
    · -- the last byte of a number that is not negative
      have hlt : UInt8.ofNat low < 64 := by
        rw [UInt8.lt_iff_toNat_lt, hn]
        exact h1
      have hz : (low : Int) = z := by omega
      simp [readSigned, hlt, hn, hz]
    · -- the last byte of a negative number
      have hge : ¬ UInt8.ofNat low < 64 := by
        rw [UInt8.lt_iff_toNat_lt, hn]
        exact Nat.not_lt.mpr h1
      have hlt : UInt8.ofNat low < 128 := by
        rw [UInt8.lt_iff_toNat_lt, hn]
        exact hlow
      have hz : (low : Int) - 128 = z := by omega
      simp [readSigned, hge, hlt, hn, hz]
  | case2 z low tail h ih =>
    have hlow : low < 128 := by omega
    have hn : (UInt8.ofNat (low + 128)).toNat = low + 128 :=
      UInt8.toNat_ofNat_of_lt' (show _ < 256 by omega)
    have hge : ¬ UInt8.ofNat (low + 128) < 64 := by
      rw [UInt8.lt_iff_toNat_lt, hn]
      simp
    have hge' : ¬ UInt8.ofNat (low + 128) < 128 := by
      rw [UInt8.lt_iff_toNat_lt, hn]
      simp
    have hz : (low : Int) + 128 * tail = z := by omega
    rw [List.cons_append, readSigned, if_neg hge, if_neg hge', ih, hn]
    simp [hz]

end WasmCompiler.Wasm.Leb128
