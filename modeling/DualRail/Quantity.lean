import DualRail.Decimal.Writing

/-!
The numbers the library computes with. Angles, probabilities and matrix entries are written against
two interfaces, so that the same definitions run on doubles and can be read over the real and
complex numbers or over any commutative ring: `Quantity` for real settings with their elementary
functions, and `Scalar` for what matrix arithmetic needs. `Amplitude R` is the complex plane over
the quantities `R`.
-/

namespace DualRail

class Quantity (R : Type) extends Zero R, One R, Add R, Sub R, Mul R, Div R, Neg R, BEq R where
  ofNat : Nat → R
  le : R → R → Bool
  lt : R → R → Bool
  isFinite : R → Bool
  pi : R
  cos : R → R
  sin : R → R
  acos : R → R
  sqrt : R → R
  hypot : R → R → R
  /-- The text of a quantity in as few digits as tell it apart. -/
  shortest : R → String
  /-- The text of a quantity in at most the given number of digits. -/
  significant : Nat → R → String

class Scalar (K : Type) extends Zero K, One K, Add K, Mul K where
  conj : K → K
  isZero : K → Bool

/-- The length of the vector `(x, y)`: infinite as soon as one side is, and computed from the ratio
of the sides so that no square overflows. -/
def floatHypot (x y : Float) : Float :=
  if x.isInf || y.isInf then Decimal.infinity false
  else if x.isNaN || y.isNaN then Decimal.nan
  else
    let p := x.abs
    let q := y.abs
    let big := if p < q then q else p
    let small := if p < q then p else q
    if big == 0 then 0
    else
      let ratio := small / big
      big * (1 + ratio * ratio).sqrt

def floatPi : Float := 3.141592653589793

instance : Quantity Float where
  zero := 0
  one := 1
  ofNat n := Float.ofNat n
  le x y := x ≤ y
  lt x y := x < y
  isFinite := Decimal.isFinite
  pi := floatPi
  cos := Float.cos
  sin := Float.sin
  acos := Float.acos
  sqrt := Float.sqrt
  hypot := floatHypot
  shortest := Decimal.shortest
  significant := Decimal.significant

/-- A complex number over the quantities `R`. -/
structure Amplitude (R : Type) where
  re : R
  im : R

namespace Amplitude

variable {R : Type} [Quantity R]

def ofReal (x : R) : Amplitude R := ⟨x, 0⟩

def i : Amplitude R := ⟨0, 1⟩

def cis (x : R) : Amplitude R := ⟨Quantity.cos x, Quantity.sin x⟩

def neg (z : Amplitude R) : Amplitude R := ⟨-z.re, -z.im⟩

def sub (z w : Amplitude R) : Amplitude R := ⟨z.re - w.re, z.im - w.im⟩

def abs (z : Amplitude R) : R := Quantity.hypot z.re z.im

instance : Scalar (Amplitude R) where
  zero := ⟨0, 0⟩
  one := ⟨1, 0⟩
  add z w := ⟨z.re + w.re, z.im + w.im⟩
  mul z w := ⟨z.re * w.re - z.im * w.im, z.re * w.im + z.im * w.re⟩
  conj z := ⟨z.re, -z.im⟩
  isZero z := z.re == 0 && z.im == 0

/-- In parentheses, the imaginary part always with a sign. -/
def text (digits : Nat) (z : Amplitude R) : String :=
  let im := Quantity.significant digits z.im
  let signed := if im.startsWith "-" || im.startsWith "+" then im else "+" ++ im
  "(" ++ Quantity.significant digits z.re ++ signed ++ "i)"

end Amplitude

end DualRail
