import DualRail.Decimal.Parts
import DualRail.Word

/-!
Numbers read from text. An integer is an optional sign and decimal digits within the range of a
word. A real number is decimal with an optional exponent, hexadecimal with a binary exponent, or one
of the names of infinity and not-a-number; single underscores may stand between digits. A real
number beyond every finite double is refused, one below every positive double reads as zero.
-/

namespace DualRail.Decimal

def digitValue? (c : Char) : Option Nat :=
  if c.isDigit then some (c.toNat - '0'.toNat)
  else
    let l := c.toLower
    if 'a' ≤ l && l ≤ 'z' then some (l.toNat - 'a'.toNat + 10) else none

def natOfDigits? (base : Nat) : List Char → Option Nat :=
  List.foldl (fun acc c => do
    let n ← acc
    let d ← digitValue? c
    if d < base then some (n * base + d) else none) (some 0)

/-- Splits off a leading sign; the flag tells whether it is a minus. -/
def takeSign : List Char → Bool × List Char
  | '+' :: rest => (false, rest)
  | '-' :: rest => (true, rest)
  | cs => (false, cs)

def signed (negative : Bool) (n : Nat) : Int := if negative then -n else n

def inWord? (x : Int) : Option Int := if Word.InRange x then some x else none

def readInt? (cs : List Char) : Option Int :=
  let (negative, digits) := takeSign cs
  if digits.isEmpty then none
  else (natOfDigits? 10 digits).bind fun n => inWord? (signed negative n)

/-- A natural number whose spelling shows its base: `0x`, `0o`, `0b`, or a leading `0` for octal. -/
def readPrefixedNat? : List Char → Option Nat
  | [] => none
  | '0' :: x :: d :: rest =>
    match x.toLower with
    | 'b' => natOfDigits? 2 (d :: rest)
    | 'o' => natOfDigits? 8 (d :: rest)
    | 'x' => natOfDigits? 16 (d :: rest)
    | _ => natOfDigits? 8 (x :: d :: rest)
  | '0' :: rest => natOfDigits? 8 rest
  | cs => natOfDigits? 10 cs

def readPrefixedInt? (cs : List Char) : Option Int :=
  let (negative, rest) := takeSign cs
  (readPrefixedNat? rest).map (signed negative)

inductive Before where
  | start
  | digit
  | underscore
  | other
  deriving DecidableEq

/-- An underscore stands between digits, a base mark counting as a digit. -/
def underscoresFit (hex : Bool) : Before → List Char → Bool
  | before, [] => before != .underscore
  | before, c :: rest =>
    if c.isDigit || (hex && (digitValue? c).any (· < 16)) then underscoresFit hex .digit rest
    else if c = '_' then before == .digit && underscoresFit hex .underscore rest
    else before != .underscore && underscoresFit hex .other rest

structure Mantissa where
  digits : List Nat := []
  /-- How many of the digits stand after the point. -/
  places : Nat := 0
  dotted : Bool := false
  rest : List Char := []

def Mantissa.read (base : Nat) (m : Mantissa) : List Char → Mantissa
  | [] => { m with digits := m.digits.reverse, rest := [] }
  | c :: rest =>
    if c = '_' then Mantissa.read base m rest
    else if c = '.' && !m.dotted then Mantissa.read base { m with dotted := true } rest
    else
      match digitValue? c with
      | some d =>
        if d < base then
          Mantissa.read base
            { m with digits := d :: m.digits, places := if m.dotted then m.places + 1 else 0 } rest
        else { m with digits := m.digits.reverse, rest := c :: rest }
      | none => { m with digits := m.digits.reverse, rest := c :: rest }

def Mantissa.value (base : Nat) (m : Mantissa) : Nat := m.digits.foldl (fun n d => n * base + d) 0

/-- An exponent saturates: beyond five digits its size no longer matters. -/
def exponentValue (cs : List Char) : Nat :=
  cs.foldl (fun e c =>
    if c = '_' then e else if e < 10000 then e * 10 + (c.toNat - '0'.toNat) else e) 0

def readExponent? (cs : List Char) : Option Int :=
  let (negative, rest) := takeSign cs
  match rest with
  | d :: _ =>
    if d.isDigit && rest.all (fun c => c.isDigit || c = '_') then
      some (signed negative (exponentValue rest))
    else none
  | [] => none

/-- The double nearest to `m * 10 ^ e`; exponents far outside the range of doubles are settled
without forming the power. -/
def decimal? (negative : Bool) (m : Nat) (e : Int) : Option Float :=
  let first := e + Ratio.digitCount 10 m
  if m = 0 || first < -330 then nearest? negative ⟨0, 1⟩
  else if 310 < first then none
  else nearest? negative (Ratio.scale 10 e ⟨m, 1⟩)

def named? (negative signed : Bool) (cs : List Char) : Option Float :=
  let name := String.ofList (cs.map Char.toLower)
  if name = "inf" || name = "infinity" then some (infinity negative)
  else if name = "nan" && !signed then some nan
  else none

/-- A real number in decimal or hexadecimal digits. -/
def readDigits? (negative : Bool) (cs : List Char) : Option Float :=
  let hex :=
    match cs with
    | '0' :: x :: _ :: _ => x.toLower == 'x'
    | _ => false
  let base := if hex then 16 else 10
  let m := Mantissa.read base {} (if hex then cs.drop 2 else cs)
  let fits := !cs.contains '_' ||
    (if hex then underscoresFit true .digit (cs.drop 2) else
      match cs with
      | '0' :: x :: _ =>
        if x.toLower == 'b' || x.toLower == 'o' then underscoresFit false .digit (cs.drop 2)
        else underscoresFit false .start cs
      | _ => underscoresFit false .start cs)
  if m.digits.isEmpty || !fits then none
  else
    let mark := if hex then 'p' else 'e'
    let exponent? : Option Int :=
      match m.rest with
      | [] => if hex then none else some 0
      | c :: rest => if c.toLower = mark then readExponent? rest else none
    exponent?.bind fun e =>
      if hex then nearest? negative (Ratio.scale 2 (e - 4 * m.places) ⟨m.value 16, 1⟩)
      else decimal? negative (m.value 10) (e - m.places)

def readFloat? (cs : List Char) : Option Float :=
  let (negative, rest) := takeSign cs
  let bare := rest.length = cs.length
  (named? negative (!bare) rest).or (readDigits? negative rest)

end DualRail.Decimal
