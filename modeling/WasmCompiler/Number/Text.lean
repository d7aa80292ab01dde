import WasmCompiler.Number.Shortest
import WasmCompiler.Number.Single

/-!
# Numbers as text

Two written forms of a floating-point value, both built from its shortest decimal. Messages use
the positional form, which never has an exponent; documents use a form that changes to an
exponent for very large and very small values and always shows that a number is not an integer.
-/

namespace WasmCompiler.Number

namespace Decimal

/-- The digits of the coefficient. -/
def figures (d : Decimal) : String :=
  toString d.digits

/-- Position of the decimal point, counted from the left end of the digits. -/
def point (d : Decimal) : Int :=
  d.figures.length + d.exponent

/-- A run of zeros. -/
def zeros (n : Nat) : String :=
  String.ofList (List.replicate n '0')

/-- The digits with the point `place` digits from the left end. -/
def split (figures : String) (place : Nat) : String :=
  let chars := figures.toList
  String.ofList (chars.take place) ++ "." ++ String.ofList (chars.drop place)

/-- The digits with the point in its place and no exponent. -/
def positional (d : Decimal) : String :=
  if 0 ≤ d.exponent then d.figures ++ zeros d.exponent.toNat
  else if 0 < d.point then split d.figures d.point.toNat
  else "0." ++ zeros (-d.point).toNat ++ d.figures

/-- One digit, the point and the other digits, then the power of ten with its sign. -/
def scientific (d : Decimal) : String :=
  let power := d.point - 1
  let head := if d.figures.length ≤ 1 then d.figures else split d.figures 1
  head ++ "e" ++ (if power < 0 then "-" else "+") ++ toString power.natAbs

/-- The powers of ten that are written without an exponent in a document. -/
def positionalPowers (power : Int) : Bool :=
  -5 ≤ power && power < 16

/-- The form of a document: whole numbers end in `.0`. -/
def document (d : Decimal) : String :=
  if positionalPowers (d.point - 1) then
    if 0 ≤ d.exponent then d.positional ++ ".0" else d.positional
  else d.scientific

end Decimal

/-- Text of a datum, given the text of its positive finite values and of zero. -/
def Datum.text (d : Datum) (zero : String) (positive : Nat → Int → String) : String :=
  match d with
  | .finite negative significand exponent =>
    let sign := if negative then "-" else ""
    sign ++ if significand = 0 then zero else positive significand exponent
  | .infinite negative => if negative then "-inf" else "inf"
  | .nan => "NaN"

/-- The fewest digits that read back, without an exponent. -/
def Double.display (x : Double) : String :=
  x.datum.text "0" fun significand exponent =>
    (shortest .double .up significand exponent).positional

/-- The fewest digits that read back, without an exponent. -/
def Single.display (x : Single) : String :=
  x.datum.text "0" fun significand exponent =>
    (shortest .single .up significand exponent).positional

/-- The form of a document, which has no word for the infinities and for what is not a number. -/
def Double.document? (x : Double) : Option String :=
  if x.isFinite then
    some <| x.datum.text "0.0" fun significand exponent =>
      (shortest .double .even significand exponent).document
  else none

end WasmCompiler.Number
