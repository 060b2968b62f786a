/-!
A place in a YAML text: the characters still to be read and where they stand. Line breaks are
carriage return, line feed, both together, and the three Unicode breaks.
-/

namespace DualRail.Yaml

structure Cursor where
  rest : List Char
  index : Nat
  line : Nat
  column : Nat
  /-- Only blanks were read since the last line break. -/
  freshLine : Bool

namespace Cursor

def ofText (cs : List Char) : Cursor := ⟨cs, 0, 0, 0, false⟩

end Cursor

def isBlank (c : Char) : Bool := c == ' ' || c == '\t'

def isBreak (c : Char) : Bool :=
  c == '\n' || c == '\r' || c.toNat == 0x85 || c.toNat == 0x2028 || c.toNat == 0x2029

/-- A line break as it stands in the text of a scalar: the two Unicode separators are kept. -/
def breakText (c : Char) : Char := if c.toNat == 0x2028 || c.toNat == 0x2029 then c else '\n'

def isWordChar (c : Char) : Bool := c.isAlphanum || c == '_' || c == '-'

def endsWord (rest : List Char) : Bool :=
  match rest with
  | [] => true
  | c :: _ => isBlank c || isBreak c

def endsLine (rest : List Char) : Bool :=
  match rest with
  | [] => true
  | c :: _ => isBreak c

namespace Cursor

def skip (c : Cursor) : Cursor :=
  match c.rest with
  | [] => c
  | x :: rest =>
    { rest, index := c.index + 1, line := c.line, column := c.column + 1,
      freshLine := c.freshLine && isBlank x }

def skipMany (c : Cursor) (n : Nat) : Cursor := Nat.repeat Cursor.skip n c

def skipWhile (c : Cursor) (p : Char → Bool) : Cursor :=
  c.skipMany (c.rest.takeWhile p).length

def skipBreak (c : Cursor) : Cursor :=
  match c.rest with
  | '\r' :: '\n' :: rest => ⟨rest, c.index + 2, c.line + 1, 0, true⟩
  | _ :: rest => ⟨rest, c.index + 1, c.line + 1, 0, true⟩
  | [] => c

def startsWith (c : Cursor) (x : Char) : Bool := c.rest.head? == some x

def atBreak (c : Cursor) : Bool := c.rest.head?.any isBreak

def atBlank (c : Cursor) : Bool := c.rest.head?.any isBlank

def atMarker (c : Cursor) (mark : Char) : Bool :=
  c.column == 0 && c.rest.take 3 == [mark, mark, mark] && endsWord (c.rest.drop 3)

def atDocumentMarker (c : Cursor) : Bool := c.atMarker '-' || c.atMarker '.'

def skipLineComment (c : Cursor) : Cursor :=
  if c.freshLine then c
  else
    match c.rest.dropWhile isBlank with
    | '#' :: _ => c.skipWhile (!isBreak ·)
    | _ => c

end Cursor

end DualRail.Yaml
