import DualRail.Decimal.Parts

/-!
Decimal digits of doubles: the fewest digits that read back as the same double, and the digits of
the value rounded to a given count.
-/

namespace DualRail.Decimal

/-- A positive decimal number: its digits and the power of ten of the first of them. -/
structure Digits where
  digits : List Char
  exponent : Int
  deriving DecidableEq, Repr

namespace Digits

def ofNat (n : Nat) (shift : Int) : Digits :=
  let all := Nat.toDigits 10 n
  ⟨(all.reverse.dropWhile (· == '0')).reverse, shift + all.length - 1⟩

/-- The value rounded to `count` digits, without trailing zeros. -/
def rounded (count : Nat) (r : Ratio) : Digits :=
  let shift := r.magnitude 10 - (count - 1)
  ofNat (r.scale 10 (-shift)).round shift

/-- The reals that round to a given double: the open or closed interval between the midpoints to
its neighbours. -/
structure Basin where
  low : Ratio
  high : Ratio
  closed : Bool

def Basin.contains (b : Basin) (r : Ratio) : Bool :=
  if b.closed then b.low.le r && r.le b.high else b.low.lt r && r.lt b.high

/-- Below a power of two the doubles lie twice as close, so there the lower midpoint is nearer. -/
def basin (coefficient : Nat) (exponent : Int) : Basin :=
  let quarter (n : Nat) := magnitudeOf n (exponent - 2)
  let below := if coefficient = hidden && (-1074 : Int) < exponent then 1 else 2
  { low := quarter (4 * coefficient - below)
    high := quarter (4 * coefficient + 2)
    closed := coefficient % 2 == 0 }

/-- The point of the grid of `count` digits that lies in the basin, the nearer one of two. -/
def onGrid? (value : Ratio) (b : Basin) (count : Nat) : Option Digits :=
  let shift := value.magnitude 10 - (count - 1)
  let scaled := value.scale 10 (-shift)
  let point (n : Nat) : Ratio := Ratio.scale 10 shift ⟨n, 1⟩
  let low := scaled.floor
  let inside n := b.contains (point n)
  let pick :=
    match inside low, inside (low + 1) with
    | true, true => some scaled.round
    | true, false => some low
    | false, true => some (low + 1)
    | false, false => none
  pick.map (ofNat · shift)

/-- Seventeen digits tell any two doubles apart. -/
def shortest (coefficient : Nat) (exponent : Int) : Digits :=
  let value := magnitudeOf coefficient exponent
  let b := basin coefficient exponent
  ((List.range 17).findSome? fun i => onGrid? value b (i + 1)).getD (rounded 17 value)

end Digits

end DualRail.Decimal
