import WasmCompiler.Number.Format

/-!
# The shortest decimal that reads back

Every number that lies nearer to a floating-point value than to its neighbours rounds to it. Of
the decimals in that interval, `shortest` takes one on the coarsest grid `10 ^ k` that meets the
interval, and on that grid the one nearest to the value.
-/

namespace WasmCompiler.Number

/-- The number `digits · 10 ^ exponent`. -/
structure Decimal where
  digits : Nat
  exponent : Int
deriving DecidableEq, Repr

/-- Which of two equally near decimals is taken. -/
inductive Tie where
  | up
  | even
deriving DecidableEq, Repr

/-- The reals that round to a value, as three numerators over one denominator. -/
structure RoundingInterval where
  low : Nat
  value : Nat
  high : Nat
  denominator : Nat
  /-- Whether the two ends round to the value as well. -/
  closed : Bool
deriving Repr

namespace RoundingInterval

/-- The interval of `significand · 2 ^ exponent`. Below a power of two the neighbour is half as
far away as above it. -/
def of (f : Format) (significand : Nat) (exponent : Int) : RoundingInterval :=
  let unit := Nat.pow 2 (exponent - 2).toNat
  let below :=
    if significand = Nat.pow 2 f.fractionBits ∧ f.leastExponent < exponent then 1 else 2
  { low := (4 * significand - below) * unit
    value := 4 * significand * unit
    high := (4 * significand + 2) * unit
    denominator := Nat.pow 2 (2 - exponent).toNat
    closed := significand % 2 = 0 }

/-- Whether `num / den` lies in the interval, `den` being a multiple of its denominator by
`scale` and `num` already on that scale. -/
def holds (i : RoundingInterval) (scale num : Nat) : Bool :=
  if i.closed then i.low * scale ≤ num && num ≤ i.high * scale
  else i.low * scale < num && num < i.high * scale

/-- The multiple of `10 ^ k` in the interval that is nearest to its value, if there is one. -/
def onGrid (i : RoundingInterval) (tie : Tie) (k : Int) : Option Nat :=
  let scale := Nat.pow 10 (-k).toNat
  let step := i.denominator * Nat.pow 10 k.toNat
  let floor := i.value * scale / step
  let rest := i.value * scale - floor * step
  let floorHolds := i.holds scale (floor * step)
  let ceilHolds := i.holds scale ((floor + 1) * step)
  -- with both neighbours inside, the nearer one is taken
  if floorHolds && ceilHolds then
    if 2 * rest < step then some floor
    else if step < 2 * rest then some (floor + 1)
    else match tie with
      | .up => some (floor + 1)
      | .even => some (floor + floor % 2)
  else if floorHolds then some floor
  else if ceilHolds then some (floor + 1)
  else none

/-- Looks for a decimal on the grids `10 ^ (bottom + n)`, …, `10 ^ (bottom + 1)`, and takes
`exact` on the grid `10 ^ bottom` if there is none. -/
def search (i : RoundingInterval) (tie : Tie) (bottom : Int) (exact : Nat) : Nat → Decimal
  | 0 => ⟨exact, bottom⟩
  | n + 1 =>
    match i.onGrid tie (bottom + (n + 1 : Nat)) with
    | some digits => ⟨digits, bottom + (n + 1 : Nat)⟩
    | none => i.search tie bottom exact n

end RoundingInterval

/-- An exponent `k` with `2 ^ bits ≤ 10 ^ k`; `0.30103` is just above the logarithm of two. -/
def decimalCeiling (bits : Int) : Int :=
  bits * 30103 / 100000 + 1

/-- The shortest decimal that rounds to the positive value `significand · 2 ^ exponent`.

The value itself is a multiple of `10 ^ min exponent 0`, where the search ends. -/
def shortest (f : Format) (tie : Tie) (significand : Nat) (exponent : Int) : Decimal :=
  let bottom := min exponent 0
  let exact := significand * Nat.pow 2 exponent.toNat * Nat.pow 5 (-exponent).toNat
  let top := max bottom (decimalCeiling (significand.log2 + 2 + exponent))
  (RoundingInterval.of f significand exponent).search tie bottom exact (top - bottom).toNat

end WasmCompiler.Number
