import DualRail.Decimal.Reading

/-!
Dates and times among plain scalars: a date in short or long form, with a time of day after `T`, `t`
or blanks. A time after `T` or `t` has a zone, one after blanks has none.
-/

namespace DualRail.Yaml.Timestamp

def takeNumber : List Char → Option (Nat × List Char)
  | a :: b :: rest =>
    if a.isDigit && b.isDigit then
      some ((a.toNat - '0'.toNat) * 10 + (b.toNat - '0'.toNat), rest)
    else if a.isDigit then some (a.toNat - '0'.toNat, b :: rest)
    else none
  | [a] => if a.isDigit then some (a.toNat - '0'.toNat, []) else none
  | [] => none

def takeBelow (limit : Nat) (cs : List Char) : Option (List Char) :=
  (takeNumber cs).bind fun (n, rest) => if n < limit then some rest else none

def takeChar (c : Char) : List Char → Option (List Char)
  | x :: rest => if x == c then some rest else none
  | [] => none

def isLeap (year : Nat) : Bool := year % 4 == 0 && (year % 100 != 0 || year % 400 == 0)

def daysIn (year month : Nat) : Nat :=
  if month = 2 then if isLeap year then 29 else 28
  else if month = 4 || month = 6 || month = 9 || month = 11 then 30
  else 31

def takeDate (cs : List Char) : Option (List Char) := do
  let digits := cs.takeWhile Char.isDigit
  if digits.length ≠ 4 then none
  else
    let year ← Decimal.natOfDigits? 10 digits
    let (month, rest) ← takeNumber (← takeChar '-' (cs.drop 4))
    let (day, rest) ← takeNumber (← takeChar '-' rest)
    if month < 1 || 12 < month || day < 1 || daysIn year month < day then none else some rest

def skipFraction : List Char → List Char
  | p :: d :: rest =>
    if (p == '.' || p == ',') && d.isDigit then rest.dropWhile Char.isDigit else p :: d :: rest
  | cs => cs

def takeClock (cs : List Char) : Option (List Char) := do
  let rest ← takeChar ':' (← takeBelow 24 cs)
  let rest ← takeChar ':' (← takeBelow 60 rest)
  let rest ← takeBelow 60 rest
  some (skipFraction rest)

def isZone : List Char → Bool
  | ['Z'] => true
  | [s, a, b, ':', c, d] =>
    (s == '+' || s == '-') &&
      (match takeNumber [a, b], takeNumber [c, d] with
       | some (h, []), some (m, []) => h ≤ 24 && m ≤ 60
       | _, _ => false)
  | _ => false

def isTime : List Char → Bool
  | [] => true
  | c :: rest =>
    if c == 'T' || c == 't' then (takeClock rest).any isZone
    else c == ' ' && (takeClock (rest.dropWhile (· == ' '))).any List.isEmpty

def isTimestamp (cs : List Char) : Bool := (takeDate cs).any isTime

end DualRail.Yaml.Timestamp
