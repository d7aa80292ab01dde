/-!
# Binary floating-point formats

A format is a sign bit, a biased exponent field and a fraction field. This module reads a bit
pattern as an exact value (`Format.decode`) and rounds an exact ratio of natural numbers to the
nearest pattern, ties to even (`Format.round`). Everything is natural-number arithmetic, so the
kernel can evaluate it.
-/

namespace WasmCompiler.Number

/-- Widths of the two fields below the sign bit. -/
structure Format where
  fractionBits : Nat
  exponentBits : Nat
deriving DecidableEq, Repr

/-- What a bit pattern stands for. A finite datum is `± significand · 2 ^ exponent`. -/
inductive Datum where
  | finite (negative : Bool) (significand : Nat) (exponent : Int)
  | infinite (negative : Bool)
  | nan
deriving DecidableEq, Repr

/-- The integer nearest to `num / den`; a half goes to the even neighbour. -/
def nearestEven (num den : Nat) : Nat :=
  let quotient := num / den
  let remainder := num % den
  if 2 * remainder < den then quotient
  else if den < 2 * remainder then quotient + 1
  else quotient + quotient % 2

/-- The exponent `e` with `2 ^ e ≤ num / den < 2 ^ (e + 1)`, for positive `num` and `den`. -/
def binade (num den : Nat) : Int :=
  let guess : Int := (num.log2 : Int) - den.log2
  if den * Nat.pow 2 guess.toNat ≤ num * Nat.pow 2 (-guess).toNat then guess else guess - 1

namespace Format

/-- Thirty-two bits, eight of them the exponent. -/
def single : Format := ⟨23, 8⟩

/-- Sixty-four bits, eleven of them the exponent. -/
def double : Format := ⟨52, 11⟩

/-- Weight of the last fraction bit of the smallest values, as a power of two. -/
def leastExponent (f : Format) : Int :=
  2 - (Nat.pow 2 (f.exponentBits - 1) : Nat) - f.fractionBits

/-- The pattern of positive infinity: all exponent bits set and no fraction. -/
def infinityBits (f : Format) : Nat :=
  (Nat.pow 2 f.exponentBits - 1) * Nat.pow 2 f.fractionBits

/-- The sign bit, set or not. -/
def signBits (f : Format) (negative : Bool) : Nat :=
  if negative then Nat.pow 2 (f.exponentBits + f.fractionBits) else 0

/-- Reads a bit pattern. -/
def decode (f : Format) (bits : Nat) : Datum :=
  let negative := bits.testBit (f.exponentBits + f.fractionBits)
  let magnitude := bits % Nat.pow 2 (f.exponentBits + f.fractionBits)
  let fraction := magnitude % Nat.pow 2 f.fractionBits
  let exponent := magnitude / Nat.pow 2 f.fractionBits
  if exponent = Nat.pow 2 f.exponentBits - 1 then
    if fraction = 0 then .infinite negative else .nan
  else if exponent = 0 then
    .finite negative fraction f.leastExponent
  else
    .finite negative (Nat.pow 2 f.fractionBits + fraction) (f.leastExponent + exponent - 1)

/-- The pattern nearest to `num / den`, ties to even, with overflow to infinity.

The significand is added to the exponent field rather than put beside it: a significand that
rounds up to the next power of two then carries into the exponent by itself. -/
def round (f : Format) (negative : Bool) (num den : Nat) : Nat :=
  if num = 0 then f.signBits negative
  else
    let exponent := max (binade num den - f.fractionBits) f.leastExponent
    let significand :=
      nearestEven (num * Nat.pow 2 (-exponent).toNat) (den * Nat.pow 2 exponent.toNat)
    let magnitude := (exponent - f.leastExponent).toNat * Nat.pow 2 f.fractionBits + significand
    f.signBits negative + min magnitude f.infinityBits

/-- The pattern nearest to `± significand · 2 ^ exponent`. -/
def ofScaled (f : Format) (negative : Bool) (significand : Nat) (exponent : Int) : Nat :=
  f.round negative (significand * Nat.pow 2 exponent.toNat) (Nat.pow 2 (-exponent).toNat)

end Format

/-- A value of the sixty-four-bit format, kept as its pattern so that equality is decidable. -/
structure Double where
  bits : UInt64
deriving DecidableEq, Repr, Inhabited

namespace Double

/-- What the pattern stands for. -/
def datum (x : Double) : Datum :=
  Format.double.decode x.bits.toNat

/-- The value nearest to `num / den`. -/
def ofRatio (num den : Nat) : Double :=
  ⟨.ofNat (Format.double.round false num den)⟩

/-- Infinities and not-a-number patterns are not finite. -/
def isFinite (x : Double) : Bool :=
  match x.datum with
  | .finite .. => true
  | _ => false

end Double

end WasmCompiler.Number
