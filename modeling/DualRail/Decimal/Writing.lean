import DualRail.Decimal.Digits

/-!
The text of a double. Numbers are written positionally while the exponent of the first digit lies
in a window that starts at `-4`, and with an exponent of at least two digits outside of it. Three
formats are in use: `shortest` (the fewest digits that read back), `significant` (a fixed number of
digits, trailing zeros dropped) and `fixed` (a fixed number of decimals).
-/

namespace DualRail.Decimal

def signText (negative : Bool) : String := if negative then "-" else ""

def exponentForm (d : Digits) : String :=
  let mantissa :=
    match d.digits with
    | [] => "0"
    | [first] => String.ofList [first]
    | first :: rest => String.ofList (first :: '.' :: rest)
  let power := toString d.exponent.natAbs
  let padded := if power.length < 2 then "0" ++ power else power
  mantissa ++ "e" ++ (if d.exponent < 0 then "-" else "+") ++ padded

def positionalForm (d : Digits) : String :=
  if d.exponent < 0 then
    String.ofList ('0' :: '.' :: List.replicate (d.exponent.natAbs - 1) '0' ++ d.digits)
  else
    let whole := d.exponent.toNat + 1
    let front := d.digits.take whole
    let front := front ++ List.replicate (whole - front.length) '0'
    match d.digits.drop whole with
    | [] => String.ofList front
    | back => String.ofList (front ++ '.' :: back)

def windowed (limit : Int) (d : Digits) : String :=
  if d.exponent < -4 || limit ≤ d.exponent then exponentForm d else positionalForm d

def written (magnitude : Nat → Int → String) (x : Float) : String :=
  match Parts.ofFloat x with
  | .nan => "NaN"
  | .infinite negative => if negative then "-Inf" else "+Inf"
  | .finite negative coefficient exponent =>
    signText negative ++ (if coefficient = 0 then "0" else magnitude coefficient exponent)

def shortest (x : Float) : String :=
  written (fun coefficient exponent => windowed 6 (Digits.shortest coefficient exponent)) x

def significant (count : Nat) (x : Float) : String :=
  written
    (fun coefficient exponent =>
      windowed count (Digits.rounded count (magnitudeOf coefficient exponent))) x

/-- With `places` decimals; a zero carries no sign. -/
def fixed (places : Nat) (x : Float) : String :=
  match Parts.ofFloat x with
  | .nan => "NaN"
  | .infinite negative => if negative then "-Inf" else "+Inf"
  | .finite negative coefficient exponent =>
    let n := ((magnitudeOf coefficient exponent).scale 10 places).round
    let digits := Nat.toDigits 10 n
    let digits := List.replicate (places + 1 - digits.length) '0' ++ digits
    let whole := digits.length - places
    signText (negative && n != 0) ++ String.ofList (digits.take whole ++ '.' :: digits.drop whole)

end DualRail.Decimal
