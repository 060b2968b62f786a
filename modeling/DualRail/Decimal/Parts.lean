/-!
Doubles as exact numbers. `Parts.ofFloat` reads a double as sign, coefficient and binary exponent;
`nearestMagnitude` goes the other way and rounds a quotient of natural numbers to the nearest
double, a tie to the even coefficient. All arithmetic is exact.
-/

namespace DualRail.Decimal

inductive Parts where
  | nan
  | infinite (negative : Bool)
  /-- The number `± coefficient * 2 ^ exponent`. -/
  | finite (negative : Bool) (coefficient : Nat) (exponent : Int)
  deriving DecidableEq, Repr

/-- The leading bit of a coefficient, which the bit pattern leaves out. -/
def hidden : Nat := Nat.pow 2 52

def Parts.ofFloat (x : Float) : Parts :=
  let bits := x.toBits.toNat
  let negative := decide (Nat.pow 2 63 ≤ bits)
  let field : Nat := bits / hidden % 2048
  let fraction : Nat := bits % hidden
  if field = 2047 then
    if fraction = 0 then .infinite negative else .nan
  else if field = 0 then .finite negative fraction (-1074)
  else .finite negative (hidden + fraction) ((field : Int) - 1075)

/-- A quotient of natural numbers. -/
structure Ratio where
  num : Nat
  den : Nat

namespace Ratio

def floor (r : Ratio) : Nat := r.num / r.den

/-- The nearest integer, a half going to the even neighbour. -/
def round (r : Ratio) : Nat :=
  let q := r.num / r.den
  let twice := 2 * (r.num % r.den)
  if twice < r.den then q
  else if r.den < twice then q + 1
  else q + q % 2

def scale (base : Nat) (k : Int) (r : Ratio) : Ratio :=
  match k with
  | .ofNat n => ⟨r.num * Nat.pow base n, r.den⟩
  | .negSucc n => ⟨r.num, r.den * Nat.pow base (n + 1)⟩

def lt (r s : Ratio) : Bool := r.num * s.den < s.num * r.den

def le (r s : Ratio) : Bool := r.num * s.den ≤ s.num * r.den

def digitCount (base n : Nat) : Nat := (Nat.toDigits base n).length

/-- The greatest `e` with `base ^ e ≤ r`, for a positive quotient. -/
def magnitude (base : Nat) (r : Ratio) : Int :=
  let e : Int := (digitCount base r.num : Int) - digitCount base r.den
  let scaled := r.scale base (-e)
  if scaled.num < scaled.den then e - 1 else e

end Ratio

def magnitudeOf (coefficient : Nat) (exponent : Int) : Ratio :=
  Ratio.scale 2 exponent ⟨coefficient, 1⟩

def signBit (negative : Bool) : Nat := if negative then Nat.pow 2 63 else 0

/-- The bit pattern of the double nearest to the quotient, or nothing if that exceeds every finite
double. Coefficient and exponent field are added, so a coefficient rounded up to `2 ^ 53` carries
into the next exponent. -/
def nearestMagnitude (r : Ratio) : Option Nat :=
  if r.num = 0 then some 0
  else
    let e : Int := (r.num.log2 : Int) - r.den.log2
    let scaled := r.scale 2 (-e)
    let top := if scaled.num < scaled.den then e - 1 else e
    let exponent := Max.max (top - 52) (-1074)
    let bits := (exponent + 1074).toNat * hidden + (r.scale 2 (-exponent)).round
    if bits < 2047 * hidden then some bits else none

def floatOfBits (negative : Bool) (magnitude : Nat) : Float :=
  Float.ofBits (UInt64.ofNat (signBit negative + magnitude))

def nearest? (negative : Bool) (r : Ratio) : Option Float :=
  (nearestMagnitude r).map (floatOfBits negative)

def infinity (negative : Bool) : Float := floatOfBits negative (2047 * hidden)

def nan : Float := floatOfBits false (2047 * hidden + hidden / 2 + 1)

def isNan (x : Float) : Bool := Parts.ofFloat x = .nan

def isFinite (x : Float) : Bool :=
  match Parts.ofFloat x with
  | .finite .. => true
  | _ => false

end DualRail.Decimal
