import DualRail.Yaml.Node
import DualRail.Yaml.Timestamp

/-!
What a scalar means. A plain scalar is null, a truth value, a number, a point in time or a text, by
how it is spelled; a quoted one is a text. A tag overrides this, and a scalar whose spelling does
not fit its tag is malformed.
-/

namespace DualRail.Yaml

inductive Value where
  | null
  | bool (b : Bool)
  | int (i : Int)
  | float (x : Float)
  | timestamp
  | text (s : String)

namespace Value

def tag : Value → Tag
  | .null => .null
  | .bool _ => .bool
  | .int _ => .int
  | .float _ => .float
  | .timestamp => .timestamp
  | .text _ => .str

def ofWord? (s : String) : Option Value :=
  if ["", "~", "null", "Null", "NULL"].contains s then some .null
  else if ["true", "True", "TRUE"].contains s then some (.bool true)
  else if ["false", "False", "FALSE"].contains s then some (.bool false)
  else if [".nan", ".NaN", ".NAN"].contains s then some (.float Decimal.nan)
  else if [".inf", ".Inf", ".INF", "+.inf", "+.Inf", "+.INF"].contains s then
    some (.float (Decimal.infinity false))
  else if ["-.inf", "-.Inf", "-.INF"].contains s then some (.float (Decimal.infinity true))
  else none

/-- Integers are those of a word, and natural numbers of 64 bits. -/
def integer? (i : Int) : Option Int :=
  if Word.InRange i || (0 ≤ i && i < Word.count) then some i else none

def readInteger? (cs : List Char) : Option Int :=
  (Decimal.readPrefixedInt? cs).bind fun i =>
    if cs.head? == some '+' then Decimal.inWord? i else integer? i

/-- Digits after a base mark may have a sign of their own. -/
def readMarked? (mark : Char) (base : Nat) (cs : List Char) : Option Int :=
  match cs with
  | '0' :: x :: rest =>
    if x == mark then
      let (negative, digits) := Decimal.takeSign rest
      if digits.isEmpty then none
      else
        (Decimal.natOfDigits? base digits).bind fun n => Decimal.inWord? (Decimal.signed negative n)
    else none
  | _ => none

def isDecimal (cs : List Char) : Bool :=
  let (_, cs) := Decimal.takeSign cs
  let whole := cs.takeWhile Char.isDigit
  let cs := cs.drop whole.length
  let (fraction, cs) :=
    match cs with
    | '.' :: rest => (rest.takeWhile Char.isDigit, rest.dropWhile Char.isDigit)
    | _ => ([], cs)
  if whole.isEmpty && fraction.isEmpty then false
  else
    match cs with
    | [] => true
    | e :: rest =>
      let (_, digits) := Decimal.takeSign rest
      (e == 'e' || e == 'E') && !digits.isEmpty && digits.all Char.isDigit

/-- The number a text spells; underscores are left out. -/
def readNumber? (cs : List Char) : Option Value :=
  let cs := cs.filter (· != '_')
  let float? := if isDecimal cs then Decimal.readFloat? cs else none
  ((readInteger? cs).map Value.int).or <|
    (float?.map Value.float).or <|
      ((readMarked? 'b' 2 cs).or (readMarked? 'o' 8 cs)).map Value.int

/-- The meaning of a plain scalar. Points in time are only looked for if `dated`. -/
def ofPlain (dated : Bool) (s : String) : Value :=
  let cs := s.toList
  let number? :=
    match cs.head? with
    | some c =>
      if c == '.' then (Decimal.readFloat? cs).map Value.float
      else if c.isDigit || c == '+' || c == '-' then
        if dated && Timestamp.isTimestamp cs then some .timestamp else readNumber? cs
      else none
    | none => none
  ((ofWord? s).or number?).getD (.text s)

end Value

def base64Digit? (c : Char) : Option Nat :=
  if 'A' ≤ c && c ≤ 'Z' then some (c.toNat - 'A'.toNat)
  else if 'a' ≤ c && c ≤ 'z' then some (c.toNat - 'a'.toNat + 26)
  else if c.isDigit then some (c.toNat - '0'.toNat + 52)
  else if c == '+' then some 62
  else if c == '/' then some 63
  else none

def base64Bytes? : List Char → Option (List Nat)
  | [] => some []
  | [a, b, '=', '='] => do
    let n := (← base64Digit? a) * 64 + (← base64Digit? b)
    some [n / 16]
  | [a, b, c, '='] => do
    let n := ((← base64Digit? a) * 64 + (← base64Digit? b)) * 64 + (← base64Digit? c)
    some [n / 1024, n / 4 % 256]
  | a :: b :: c :: d :: rest => do
    let n := (((← base64Digit? a) * 64 + (← base64Digit? b)) * 64 + (← base64Digit? c)) * 64 +
      (← base64Digit? d)
    (base64Bytes? rest).map ([n / 65536, n / 256 % 256, n % 256] ++ ·)
  | _ => none

/-- Text from bytes, a replacement mark for every text that is not well formed. -/
def textOfBytes (bytes : List Nat) : String :=
  (String.fromUTF8? ⟨(bytes.map Nat.toUInt8).toArray⟩).getD "�"

def binaryText? (text : String) : Option String :=
  (base64Bytes? (text.toList.filter fun c => c != '\n' && c != '\r')).map textOfBytes

/-- The meaning of a scalar, `none` if it does not fit its tag. -/
def scalarValue? (tag : Option Tag) (text : String) (style : ScalarStyle) : Option Value :=
  match tag with
  | none => some (if style = .plain then .ofPlain true text else .text text)
  | some .str | some .merge | some (.other _) => some (.text text)
  | some .binary => (binaryText? text).map Value.text
  | some t =>
    let v := Value.ofPlain (t == .timestamp) text
    match t, v with
    | .float, .int i => if Word.InRange i then some (.float (Float.ofInt i)) else none
    | _, _ => if v.tag = t then some v else none

end DualRail.Yaml
