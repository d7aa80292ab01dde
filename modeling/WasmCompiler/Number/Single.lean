import WasmCompiler.Number.Format

/-!
# Arithmetic on the thirty-two-bit format

Each operation computes the exact result of its operands and rounds once. An operation with no
exact result (`0 / 0`, `∞ - ∞`, `0 · ∞`) gives the default not-a-number pattern; one with a
not-a-number operand passes that operand on, the left one first, with its quiet bit set.
-/

namespace WasmCompiler.Number

/-- A value of the thirty-two-bit format, kept as its pattern. -/
structure Single where
  bits : UInt32
deriving DecidableEq, Repr, Inhabited

namespace Single

/-- The result of an operation that has none: a quiet not-a-number with its sign bit set. -/
def defaultNaN : Single := ⟨0xffc00000⟩

/-- Positive zero. -/
def zero : Single := ⟨0⟩

/-- Infinity of the given sign. -/
def infinity (negative : Bool) : Single :=
  ⟨if negative then 0xff800000 else 0x7f800000⟩

/-- What the pattern stands for. -/
def datum (x : Single) : Datum :=
  Format.single.decode x.bits.toNat

/-- Whether the pattern is not a number. -/
def isNaN (x : Single) : Bool :=
  x.bits &&& 0x7fffffff > 0x7f800000

/-- Sets the quiet bit. -/
def quiet (x : Single) : Single :=
  ⟨x.bits ||| 0x00400000⟩

/-- The value nearest to `± num / den`. -/
def ofRatio (negative : Bool) (num den : Nat) : Single :=
  ⟨.ofNat (Format.single.round negative num den)⟩

/-- The value nearest to `± significand · 2 ^ exponent`. -/
def ofScaled (negative : Bool) (significand : Nat) (exponent : Int) : Single :=
  ⟨.ofNat (Format.single.ofScaled negative significand exponent)⟩

/-- The value nearest to an integer. -/
def ofInt (value : Int) : Single :=
  ofScaled (value < 0) value.natAbs 0

/-- Narrows a sixty-four-bit value. -/
def ofDouble (x : Double) : Single :=
  match x.datum with
  | .finite negative significand exponent => ofScaled negative significand exponent
  | .infinite negative => infinity negative
  | .nan => defaultNaN

/-- Flips the sign bit, of any pattern. -/
def neg (x : Single) : Single :=
  ⟨x.bits ^^^ 0x80000000⟩

/-- Applies `op` unless an operand is not a number, which is then the result. -/
def propagate (op : Single → Single → Single) (x y : Single) : Single :=
  if x.isNaN then x.quiet else if y.isNaN then y.quiet else op x y

/-- The signed integer `± significand · 2 ^ shift`. -/
def signed (negative : Bool) (significand : Nat) (shift : Nat) : Int :=
  let magnitude := significand * Nat.pow 2 shift
  if negative then -magnitude else magnitude

/-- Sum of two numbers. An exact zero is negative only if both operands are. -/
def addNumbers (x y : Single) : Single :=
  match x.datum, y.datum with
  | .finite s m e, .finite t n d =>
    let least := min e d
    let sum := signed s m (e - least).toNat + signed t n (d - least).toNat
    if sum = 0 then ofScaled (s && t) 0 0 else ofScaled (sum < 0) sum.natAbs least
  | .infinite s, .infinite t => if s = t then infinity s else defaultNaN
  | .infinite s, _ => infinity s
  | _, .infinite t => infinity t
  | _, _ => defaultNaN

/-- Product of two numbers. -/
def mulNumbers (x y : Single) : Single :=
  match x.datum, y.datum with
  | .finite s m e, .finite t n d => ofScaled (s != t) (m * n) (e + d)
  | .infinite s, .infinite t => infinity (s != t)
  | .infinite s, .finite t n _ => if n = 0 then defaultNaN else infinity (s != t)
  | .finite s m _, .infinite t => if m = 0 then defaultNaN else infinity (s != t)
  | _, _ => defaultNaN

/-- Quotient of two numbers. -/
def divNumbers (x y : Single) : Single :=
  match x.datum, y.datum with
  | .finite s m e, .finite t n d =>
    if n = 0 then
      if m = 0 then defaultNaN else infinity (s != t)
    else
      let shift := e - d
      ofRatio (s != t) (m * Nat.pow 2 shift.toNat) (n * Nat.pow 2 (-shift).toNat)
  | .infinite s, .finite t .. => infinity (s != t)
  | .finite s .., .infinite t => ofScaled (s != t) 0 0
  | _, _ => defaultNaN

def add : Single → Single → Single := propagate addNumbers

def sub : Single → Single → Single := propagate fun x y => addNumbers x y.neg

def mul : Single → Single → Single := propagate mulNumbers

def div : Single → Single → Single := propagate divNumbers

/-- Patterns of one sign are ordered as their magnitudes, so a number's place in the order is
its signed magnitude; both zeros have place zero. -/
def place (x : Single) : Int :=
  let magnitude := x.bits &&& 0x7fffffff
  if x.bits &&& 0x80000000 = 0 then magnitude.toNat else -magnitude.toNat

/-- Equality of numbers. Nothing equals a pattern that is not a number. -/
def eq (x y : Single) : Bool :=
  !x.isNaN && !y.isNaN && x.place == y.place

def lt (x y : Single) : Bool :=
  !x.isNaN && !y.isNaN && decide (x.place < y.place)

def le (x y : Single) : Bool :=
  !x.isNaN && !y.isNaN && decide (x.place ≤ y.place)

end Single

end WasmCompiler.Number
