import DualRail.Decimal.Reading
import DualRail.Yaml.Cursor

/-!
The text of scalars. Plain and quoted scalars may go over several lines; a single line break inside
them becomes a space and further ones stay. Block scalars keep their lines (`|`) or fold them (`>`).
A reader gives nothing if the text is malformed.
-/

namespace DualRail.Yaml

/-- A scalar being read. Texts are held last character first. -/
structure Gathering where
  cursor : Cursor
  text : List Char
  /-- Blanks since the last word of the line. -/
  blanks : List Char
  /-- The first line break since the last word, if there was one. -/
  firstBreak : Option Char
  /-- The line breaks after the first one. -/
  moreBreaks : List Char
  /-- The present line has had no word yet. -/
  leading : Bool

namespace Gathering

def start (c : Cursor) : Gathering := ⟨c, [], [], none, [], false⟩

def joint (g : Gathering) : List Char :=
  if g.leading then
    match g.firstBreak with
    | some '\n' => if g.moreBreaks.isEmpty then [' '] else g.moreBreaks
    | some b => g.moreBreaks ++ [b]
    | none => g.moreBreaks
  else g.blanks

def join (g : Gathering) : Gathering :=
  { g with text := g.joint ++ g.text, blanks := [], firstBreak := none, moreBreaks := [],
           leading := false }

def space (g : Gathering) : Gathering :=
  match g.cursor.rest with
  | [] => g
  | x :: _ =>
    if isBlank x then
      { g with cursor := g.cursor.skip, blanks := if g.leading then g.blanks else x :: g.blanks }
    else if g.leading then
      { g with cursor := g.cursor.skipBreak, moreBreaks := breakText x :: g.moreBreaks }
    else
      { g with cursor := g.cursor.skipBreak, blanks := [], firstBreak := some (breakText x),
               leading := true }

def atSpace (g : Gathering) : Bool := g.cursor.atBlank || g.cursor.atBreak

end Gathering

def endsPlain (flow : Bool) (c : Char) (rest : List Char) : Bool :=
  (c == ':' && endsWord rest) ||
    (flow && (c == ',' || c == '?' || c == '[' || c == ']' || c == '\x7b' || c == '\x7d'))

def plainWord (flow : Bool) : List Char → Nat
  | [] => 0
  | c :: rest =>
    if isBlank c || isBreak c || endsPlain flow c rest then 0 else plainWord flow rest + 1

/-- Reads white space within a plain scalar; a tab must not stand in for indentation. -/
def plainSpace (indent : Int) : Nat → Gathering → Option Gathering
  | 0, g => some g
  | fuel + 1, g =>
    if g.atSpace then
      if g.leading && (g.cursor.column : Int) < indent && g.cursor.startsWith '\t' then none
      else plainSpace indent fuel g.space
    else some g

/-- Reads words until the scalar ends; the white space after the last word is read as well. -/
def plainWords (flow : Bool) (indent : Int) : Nat → Gathering → Option Gathering
  | 0, g => some g
  | fuel + 1, g =>
    if g.cursor.atDocumentMarker || g.cursor.startsWith '#' then some g
    else
      let n := plainWord flow g.cursor.rest
      let joined := if n = 0 then g else g.join
      let g := { joined with
        text := (g.cursor.rest.take n).reverse ++ joined.text
        cursor := g.cursor.skipMany n }
      if !g.atSpace then some g
      else do
        let g ← plainSpace indent g.cursor.rest.length g
        if !flow && (g.cursor.column : Int) < indent then some g
        else plainWords flow indent fuel g

def readPlain (flow : Bool) (indent : Int) (c : Cursor) : Option Gathering :=
  plainWords flow (indent + 1) (c.rest.length + 1) (.start c)

def simpleEscape? : Char → Option Char
  | '0' => some '\x00'
  | 'a' => some '\x07'
  | 'b' => some '\x08'
  | 't' => some '\t'
  | '\t' => some '\t'
  | 'n' => some '\n'
  | 'v' => some '\x0b'
  | 'f' => some '\x0c'
  | 'r' => some '\r'
  | 'e' => some '\x1b'
  | ' ' => some ' '
  | '"' => some '"'
  | '\\' => some '\\'
  | 'N' => some (Char.ofNat 0x85)
  | '_' => some (Char.ofNat 0xa0)
  | 'L' => some (Char.ofNat 0x2028)
  | 'P' => some (Char.ofNat 0x2029)
  | c => if c.toNat == 0x27 then some c else none

def codeLength? : Char → Option Nat
  | 'x' => some 2
  | 'u' => some 4
  | 'U' => some 8
  | _ => none

def codePoint? (digits : List Char) (length : Nat) : Option Char :=
  if digits.length < length then none
  else
    (Decimal.natOfDigits? 16 digits).bind fun n =>
      if (0xd800 ≤ n && n ≤ 0xdfff) || 0x10ffff < n then none else some (Char.ofNat n)

def readEscape (g : Gathering) : Option Gathering :=
  match g.cursor.rest with
  | _ :: c :: rest =>
    match simpleEscape? c with
    | some x => some { g with text := x :: g.text, cursor := g.cursor.skipMany 2 }
    | none => do
      let n ← codeLength? c
      let x ← codePoint? (rest.take n) n
      some { g with text := x :: g.text, cursor := g.cursor.skipMany (2 + n) }
  | _ => none

def quoteMark (single : Bool) : Char := if single then Char.ofNat 0x27 else '"'

def quotedWord (single : Bool) : Nat → Gathering → Option Gathering
  | 0, g => some g
  | fuel + 1, g =>
    match g.cursor.rest with
    | [] => some g
    | c :: rest =>
      if isBlank c || isBreak c then some g
      else if single && c == quoteMark true && rest.head? == some (quoteMark true) then
        quotedWord single fuel { g with text := c :: g.text, cursor := g.cursor.skipMany 2 }
      else if c == quoteMark single then some g
      else if !single && c == '\\' then
        if rest.head?.any isBreak then
          some { g with cursor := g.cursor.skip.skipBreak, leading := true }
        else do quotedWord single fuel (← readEscape g)
      else quotedWord single fuel { g with text := c :: g.text, cursor := g.cursor.skip }

def quotedSpace : Nat → Gathering → Gathering
  | 0, g => g
  | fuel + 1, g => if g.atSpace then quotedSpace fuel g.space else g

def quotedWords (single : Bool) : Nat → Gathering → Option Gathering
  | 0, _ => none
  | fuel + 1, g =>
    if g.cursor.atDocumentMarker || g.cursor.rest.isEmpty then none
    else do
      let g ← quotedWord single g.cursor.rest.length g
      if g.cursor.startsWith (quoteMark single) then
        some { g with cursor := g.cursor.skip }
      else
        let g := (quotedSpace g.cursor.rest.length g).join
        quotedWords single fuel g

/-- Reads a quoted scalar from its opening quote to its closing one. -/
def readQuoted (single : Bool) (c : Cursor) : Option Gathering :=
  quotedWords single (c.rest.length + 1) (.start c.skip)

inductive Chomping where
  | strip
  | clip
  | keep
  deriving DecidableEq

def chomping? : Char → Option Chomping
  | '+' => some .keep
  | '-' => some .strip
  | _ => none

/-- The indicators after `|` or `>`: chomping and indentation, in either order. -/
structure BlockHeader where
  chomping : Chomping
  /-- The stated indentation, zero if none is. -/
  increment : Nat
  cursor : Cursor

def readIncrement (c : Cursor) : Option (Nat × Cursor) :=
  match c.rest.head? with
  | some d =>
    if d == '0' then none
    else if d.isDigit then some (d.toNat - '0'.toNat, c.skip)
    else some (0, c)
  | none => some (0, c)

def readChomping (c : Cursor) : Option Chomping × Cursor :=
  match c.rest.head?.bind chomping? with
  | some x => (some x, c.skip)
  | none => (none, c)

def readBlockHeader (c : Cursor) : Option BlockHeader := do
  let (early, c) := readChomping c
  let (increment, c) ← readIncrement c
  let (late, c) := if early.isNone && increment ≠ 0 then readChomping c else (none, c)
  let c := c.skipWhile isBlank
  let c := if c.startsWith '#' then c.skipWhile (!isBreak ·) else c
  if !endsLine c.rest then none
  else
    let c := if c.atBreak then c.skipBreak else c
    some ⟨(early.or late).getD .clip, increment, c⟩

structure BlockGap where
  cursor : Cursor
  breaks : List Char
  deepest : Nat

/-- Skips empty lines; with `indent` zero the indentation is not known yet. -/
def blockGap (indent : Nat) : Nat → BlockGap → Option BlockGap
  | 0, g => some g
  | fuel + 1, g =>
    let spaces := (g.cursor.rest.takeWhile (· == ' ')).length
    let n := if indent = 0 then spaces else Nat.min spaces (indent - g.cursor.column)
    let c := g.cursor.skipMany n
    let g := { g with cursor := c, deepest := Nat.max g.deepest c.column }
    if (indent = 0 || c.column < indent) && c.startsWith '\t' then none
    else if c.atBreak then
      let b := breakText (c.rest.headD '\n')
      blockGap indent fuel { g with cursor := c.skipBreak, breaks := b :: g.breaks }
    else some g

structure BlockText where
  cursor : Cursor
  text : List Char
  firstBreak : List Char
  moreBreaks : List Char
  /-- The last line started with a blank. -/
  indented : Bool

def blockLines (literal : Bool) (indent : Nat) : Nat → BlockText → Option BlockText
  | 0, b => some b
  | fuel + 1, b =>
    if b.cursor.column ≠ indent || b.cursor.rest.isEmpty then some b
    else do
      let indented := b.cursor.atBlank
      let folds := !literal && !b.indented && !indented && b.firstBreak == ['\n']
      let joint := if folds then (if b.moreBreaks.isEmpty then [' '] else []) else b.firstBreak
      let line := b.cursor.rest.takeWhile (!isBreak ·)
      let text := line.reverse ++ b.moreBreaks ++ joint ++ b.text
      let c := b.cursor.skipMany line.length
      let firstBreak := if c.atBreak then [breakText (c.rest.headD '\n')] else []
      let c := if c.atBreak then c.skipBreak else c
      let gap ← blockGap indent (c.rest.length + 1) ⟨c, [], 0⟩
      blockLines literal indent fuel ⟨gap.cursor, text, firstBreak, gap.breaks, indented⟩

/-- Reads a block scalar from its indicator on; `indent` is the indentation around it. -/
def readBlock (literal : Bool) (indent : Int) (c : Cursor) : Option (List Char × Cursor) := do
  let header ← readBlockHeader c.skip
  let c := header.cursor
  let stated := if header.increment = 0 then 0 else indent.toNat + header.increment
  let gap ← blockGap stated (c.rest.length + 1) ⟨c, [], 0⟩
  let inner :=
    if stated ≠ 0 then stated else Nat.max (Nat.max gap.deepest (indent + 1).toNat) 1
  let b ← blockLines literal inner (c.rest.length + 1) ⟨gap.cursor, [], [], gap.breaks, false⟩
  let text :=
    match header.chomping with
    | .strip => b.text
    | .clip => b.firstBreak ++ b.text
    | .keep => b.moreBreaks ++ b.firstBreak ++ b.text
  some (text.reverse, b.cursor)

end DualRail.Yaml
