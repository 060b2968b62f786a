import DualRail.Text.Quoted
import DualRail.Yaml.Value

/-!
How a text is written as a scalar in block context. It is plain where that reads back as the same
text; in double quotes if the plain form would read as something else; in single quotes if its
characters forbid the plain form; a literal block if it has several lines; and in double quotes with
escapes if nothing else can hold it.
-/

namespace DualRail.Yaml

def isWritable (c : Char) : Bool :=
  let n := c.toNat
  n == 0x0a || (0x20 ≤ n && n ≤ 0x7e) || (0xa0 ≤ n && n ≤ 0xd7ff) ||
    (0xe000 ≤ n && n ≤ 0xfffd && n != 0xfeff)

def hasAdjacent (p q : Char → Bool) : List Char → Bool
  | a :: b :: rest => (p a && q b) || hasAdjacent p q (b :: rest)
  | _ => false

def blankFollows (rest : List Char) : Bool := rest.head?.all isBlank

def hasInnerIndicator : Char → List Char → Bool
  | _, [] => false
  | before, c :: rest =>
    (c == ':' && blankFollows rest) ||
      (c == '#' && (isBlank before || isBreak before)) || hasInnerIndicator c rest

def startsIndicator (c : Char) (rest : List Char) : Bool :=
  "#,[]\x7b\x7d&*!|>\"%@".toList.contains c || c.toNat == 0x27 || c.toNat == 0x60 ||
    ((c == '?' || c == ':' || c == '-') && blankFollows rest)

def hasIndicator (cs : List Char) : Bool :=
  match cs with
  | [] => false
  | c :: rest =>
    cs.take 3 == ['-', '-', '-'] || cs.take 3 == ['.', '.', '.'] ||
      startsIndicator c rest || hasInnerIndicator c rest

/-- Characters that only double quotes can hold. -/
def hasSpecial (cs : List Char) : Bool := cs.any fun c => c != '\t' && !isWritable c

def isSpace (c : Char) : Bool := c == ' '

def fitsSingleQuotes (cs : List Char) : Bool :=
  !hasAdjacent isBreak isSpace cs && !hasAdjacent isSpace isBreak cs && !cs.contains '\t' &&
    !hasSpecial cs

def fitsPlain (cs : List Char) : Bool :=
  fitsSingleQuotes cs && !cs.any isBreak && !hasIndicator cs && cs.head? != some ' ' &&
    cs.getLast? != some ' '

def fitsLiteral (cs : List Char) : Bool :=
  cs.getLast? != some ' ' && !hasAdjacent isSpace isBreak cs && !hasSpecial cs

/-- Words that some readers take for truth values. -/
def isOldBool (s : String) : Bool :=
  ["y", "Y", "yes", "Yes", "YES", "on", "On", "ON",
   "n", "N", "no", "No", "NO", "off", "Off", "OFF"].contains s

def sexagesimalTail : Nat → List Char → Bool
  | 0, _ => false
  | fuel + 1, cs =>
    match cs with
    | ':' :: rest =>
      let digits := rest.takeWhile Char.isDigit
      let after := rest.drop digits.length
      let fits := digits.length == 1 || (digits.length == 2 && digits.head?.any (· < '6'))
      let ends :=
        match after with
        | [] => true
        | c :: more => c == '.' && more.all fun d => d.isDigit || d == '_'
      fits && (ends || sexagesimalTail fuel after)
    | _ => false

/-- Numbers in base sixty, such as `12:30:45`, which some readers accept. -/
def isSexagesimal (cs : List Char) : Bool :=
  let (_, digits) := Decimal.takeSign cs
  digits.head?.any Char.isDigit &&
    sexagesimalTail cs.length (digits.dropWhile fun d => d.isDigit || d == '_')

/-- The plain form reads as this text, and other readers would agree. -/
def readsAsText (s : String) : Bool :=
  (Value.ofPlain true s).tag == .str && !isSexagesimal s.toList && !isOldBool s

def ScalarStyle.choose (s : String) : ScalarStyle :=
  let cs := s.toList
  if cs.contains '\n' then if fitsLiteral cs then .literal else .doubleQuoted
  else if !readsAsText s then .doubleQuoted
  else if fitsPlain cs then .plain
  else if fitsSingleQuotes cs then .singleQuoted
  else .doubleQuoted

def escapeLetter? (c : Char) : Option Char :=
  match c.toNat with
  | 0x00 => some '0'
  | 0x07 => some 'a'
  | 0x08 => some 'b'
  | 0x09 => some 't'
  | 0x0a => some 'n'
  | 0x0b => some 'v'
  | 0x0c => some 'f'
  | 0x0d => some 'r'
  | 0x1b => some 'e'
  | 0x22 => some '"'
  | 0x5c => some '\\'
  | 0x85 => some 'N'
  | 0x2028 => some 'L'
  | 0x2029 => some 'P'
  | _ => none

def hexCode (digits n : Nat) : String :=
  String.ofList ((Text.hexPadded digits n).map Char.toUpper)

def escaped (c : Char) : String :=
  match escapeLetter? c with
  | some letter => "\\" ++ String.singleton letter
  | none =>
    let n := c.toNat
    if n ≤ 0xff then "\\x" ++ hexCode 2 n
    else if n ≤ 0xffff then "\\u" ++ hexCode 4 n
    else "\\U" ++ hexCode 8 n

def needsEscape (c : Char) : Bool := !isWritable c || isBreak c || c == '"' || c == '\\'

def doubleQuotedText (s : String) : String :=
  "\"" ++ String.join (s.toList.map fun c => if needsEscape c then escaped c else .singleton c) ++
    "\""

def indentLines (pad : String) : Bool → List Char → String
  | _, [] => ""
  | fresh, c :: rest =>
    if isBreak c then .singleton c ++ indentLines pad true rest
    else (if fresh then pad else "") ++ .singleton c ++ indentLines pad false rest

def spaces (n : Nat) : String := String.ofList (List.replicate n ' ')

def singleQuotedText (indent : Nat) (s : String) : String :=
  let body := s.toList.flatMap fun c => if c.toNat == 0x27 then [c, c] else [c]
  "'" ++ indentLines (spaces indent) false body ++ "'"

def indentStep : Nat := 2

/-- The header of a literal block: the indentation if the text starts with white space, and what
becomes of the breaks at its end. -/
def literalHeader (cs : List Char) : String :=
  let hint := if cs.head?.any fun c => isSpace c || isBreak c then toString indentStep else ""
  let chomp :=
    match cs.reverse with
    | last :: before :: _ =>
      if !isBreak last then "-" else if isBreak before then "+" else ""
    | [last] => if isBreak last then "+" else "-"
    | [] => "-"
  "|" ++ hint ++ chomp

/-- A literal block. A break at its start is the one after its header. -/
def literalText (indent : Nat) (s : String) : String :=
  let cs := s.toList
  let gap := if cs.head?.any isBreak then "" else "\n"
  literalHeader cs ++ gap ++ indentLines (spaces indent) true cs

/-- A text as a scalar whose further lines are indented by `indent`. -/
def scalarText (indent : Nat) (s : String) : String :=
  match ScalarStyle.choose s with
  | .plain => s
  | .singleQuoted => singleQuotedText indent s
  | .doubleQuoted => doubleQuotedText s
  | .literal | .folded => literalText indent s

end DualRail.Yaml
