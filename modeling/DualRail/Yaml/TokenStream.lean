import DualRail.Yaml.Scalar
import DualRail.Yaml.Token

/-!
A YAML text as a stream of tokens. Blocks are opened and closed by indentation. What turns out to be
a key of a mapping is known only at the colon after it, so the place of a possible key is remembered
and its token is inserted there once the colon is read.
-/

namespace DualRail.Yaml

/-- A place where a key without `?` may have started. -/
structure PossibleKey where
  /-- Which token the key starts with. -/
  position : Nat
  /-- Nothing but a key may stand here. -/
  required : Bool
  index : Nat
  line : Nat
  column : Nat

structure Scanner where
  cursor : Cursor
  tokens : Array Token
  /-- The indentation of the innermost block, `-1` outside of all blocks. -/
  indent : Int
  outerIndents : List Int
  keyAllowed : Bool
  /-- The possible key at the innermost flow level. -/
  key : Option PossibleKey
  /-- The possible keys of the levels around it, one for each open bracket. -/
  outerKeys : List (Option PossibleKey)

namespace Scanner

def start (text : List Char) : Scanner where
  cursor := .ofText text
  tokens := #[⟨.streamStart, 0⟩]
  indent := -1
  outerIndents := []
  keyAllowed := true
  key := none
  outerKeys := []

def inFlow (s : Scanner) : Bool := !s.outerKeys.isEmpty

def push (s : Scanner) (kind : TokenKind) (line : Nat) : Scanner :=
  { s with tokens := s.tokens.push ⟨kind, line⟩ }

def pushIndicator (s : Scanner) (kind : TokenKind) (n : Nat) : Scanner :=
  { s.push kind s.cursor.line with cursor := s.cursor.skipMany n }

/-- Closes the blocks that are indented by more than `column`. -/
def closeBlocks (column : Int) : List Int → Scanner → Scanner
  | [], s => s
  | outer :: rest, s =>
    if column < s.indent then
      closeBlocks column rest
        { s.push .blockEnd s.cursor.line with indent := outer, outerIndents := rest }
    else s

def unindent (s : Scanner) (column : Int) : Scanner :=
  if s.inFlow then s else closeBlocks column s.outerIndents s

def openBlock (s : Scanner) (column position line : Nat) (kind : TokenKind) : Scanner :=
  if s.inFlow || (column : Int) ≤ s.indent then s
  else
    { s with
      tokens := s.tokens.insertIdxIfInBounds position ⟨kind, line⟩
      indent := column
      outerIndents := s.indent :: s.outerIndents }

def openBlockHere (s : Scanner) (kind : TokenKind) : Scanner :=
  s.openBlock s.cursor.column s.tokens.size s.cursor.line kind

def dropKey (s : Scanner) : Option Scanner :=
  if s.key.any (·.required) then none else some { s with key := none }

def noteKey (s : Scanner) : Option Scanner :=
  if s.keyAllowed then do
    let dropped ← s.dropKey
    some { dropped with
      key := some {
        position := s.tokens.size
        required := !s.inFlow && s.indent == s.cursor.column
        index := s.cursor.index
        line := s.cursor.line
        column := s.cursor.column } }
  else some s

/-- Whether a colon here makes the possible key a key: it must be on the same line and at most 1024
characters on. A required key that is neither makes the text malformed. -/
def confirmKey (s : Scanner) : Option (Option PossibleKey) :=
  match s.key with
  | none => some none
  | some k =>
    if k.line < s.cursor.line || k.index + 1024 < s.cursor.index then
      if k.required then none else some none
    else some (some k)

def skipSpace : Nat → Cursor → Cursor
  | 0, c => c
  | fuel + 1, c =>
    if c.atBlank then skipSpace fuel c.skip
    else if c.atBreak then skipSpace fuel c.skipBreak
    else c

def skipComments : Nat → Cursor → Cursor
  | 0, c => c
  | fuel + 1, c =>
    let c := c.skipWhile (!isBreak ·)
    let next := skipSpace c.rest.length c
    if next.startsWith '#' then skipComments fuel next else c

/-- Skips white space and comments before a token. A tab may not stand where a key may start. -/
def skipToToken (flow : Bool) : Nat → Cursor → Bool → Cursor × Bool
  | 0, c, keyAllowed => (c, keyAllowed)
  | fuel + 1, c, keyAllowed =>
    let c := if c.column == 0 && c.startsWith '\ufeff' then c.skip else c
    let c := c.skipWhile fun x => x == ' ' || ((flow || !keyAllowed) && x == '\t')
    let c := if c.startsWith '#' then skipComments (c.rest.length + 1) c else c
    if c.atBreak then skipToToken flow fuel c.skipBreak (keyAllowed || !flow)
    else (c, keyAllowed)

def endsAnchor (rest : List Char) : Bool :=
  endsWord rest || rest.head?.any fun c => "?:,]\x7d%@".toList.contains c || c.toNat == 0x60

def readAnchor (s : Scanner) (kind : List Char → TokenKind) : Option Scanner :=
  let c := s.cursor.skip
  let name := c.rest.takeWhile isWordChar
  if name.isEmpty || !endsAnchor (c.rest.drop name.length) then none
  else some { s.push (kind name) s.cursor.line with cursor := c.skipMany name.length }

def isUriChar (c : Char) : Bool :=
  isWordChar c || ";/?:@&=+$,.%!~*()[]".toList.contains c || c.toNat == 0x27

def byteWidth? (b : Nat) : Option Nat :=
  if b < 0x80 then some 1
  else if b / 0x20 = 6 then some 2
  else if b / 0x10 = 14 then some 3
  else if b / 8 = 30 then some 4
  else none

def uriByte? : List Char → Option (Nat × List Char)
  | '%' :: a :: b :: rest => (Decimal.natOfDigits? 16 [a, b]).map (·, rest)
  | _ => none

def uriBytes? : Nat → List Char → Option (List Nat × List Char)
  | 0, cs => some ([], cs)
  | n + 1, cs => do
    let (b, cs) ← uriByte? cs
    if b / 0x40 = 2 then
      let (bs, cs) ← uriBytes? n cs
      some (b :: bs, cs)
    else none

def uriEscape? (cs : List Char) : Option (Char × List Char) := do
  let (b, cs) ← uriByte? cs
  let width ← byteWidth? b
  let (bs, cs) ← uriBytes? (width - 1) cs
  let lead := if width = 1 then b else b % Nat.pow 2 (7 - width)
  some (Char.ofNat (bs.foldl (fun n x => n * 0x40 + x % 0x40) lead), cs)

def unescapeUri : Nat → List Char → Option (List Char)
  | _, [] => some []
  | 0, _ => none
  | fuel + 1, c :: rest =>
    if c == '%' then do
      let (x, rest) ← uriEscape? (c :: rest)
      (unescapeUri fuel rest).map (x :: ·)
    else (unescapeUri fuel rest).map (c :: ·)

def readUri (c : Cursor) : Option (List Char × Cursor) := do
  let raw := c.rest.takeWhile isUriChar
  let uri ← unescapeUri raw.length raw
  some (uri, c.skipMany raw.length)

/-- A tag handle: `!`, `!!` or `!word!`; what is no handle after all is `!word`. -/
def readHandle (c : Cursor) : Option (List Char × Cursor) :=
  if !c.startsWith '!' then none
  else
    let word := c.skip.rest.takeWhile isWordChar
    let after := c.skipMany (word.length + 1)
    if after.startsWith '!' then some ('!' :: word ++ ['!'], after.skip)
    else some ('!' :: word, after)

def isHandle (h : List Char) : Bool := 1 < h.length && h.getLast? == some '!'

def readTagParts (c : Cursor) : Option (List Char × List Char × Cursor) :=
  if c.skip.startsWith '<' then do
    let (uri, c) ← readUri (c.skipMany 2)
    if uri.isEmpty || !c.startsWith '>' then none else some ([], uri, c.skip)
  else do
    let (handle, c) ← readHandle c
    let (uri, c) ← readUri c
    if isHandle handle then
      if uri.isEmpty then none else some (handle, uri, c)
    else
      let suffix := handle.drop 1 ++ uri
      if suffix.isEmpty then some ([], ['!'], c) else some (['!'], suffix, c)

def readTag (s : Scanner) : Option Scanner := do
  let (handle, suffix, c) ← readTagParts s.cursor
  if endsWord c.rest then some { s.push (.tag handle suffix) s.cursor.line with cursor := c }
  else none

def readVersionPart (c : Cursor) : Option (Nat × Cursor) :=
  let digits := c.rest.takeWhile Char.isDigit
  if digits.isEmpty || 9 < digits.length then none
  else (Decimal.natOfDigits? 10 digits).map (·, c.skipMany digits.length)

def readVersion (c : Cursor) : Option (TokenKind × Cursor) := do
  let (major, c) ← readVersionPart (c.skipWhile isBlank)
  if !c.startsWith '.' then none
  else
    let (minor, c) ← readVersionPart c.skip
    some (.version major minor, c)

def readShorthand (c : Cursor) : Option (TokenKind × Cursor) := do
  let (handle, c) ← readHandle (c.skipWhile isBlank)
  if handle.getLast? != some '!' || !c.atBlank then none
  else
    let (expansion, c) ← readUri (c.skipWhile isBlank)
    if expansion.isEmpty || !endsWord c.rest then none
    else some (.tagShorthand handle expansion, c)

def readDirective (s : Scanner) : Option Scanner := do
  let c := s.cursor.skip
  let name := c.rest.takeWhile isWordChar
  let c := c.skipMany name.length
  if !endsWord c.rest then none
  else
    let (kind, c) ←
      match String.ofList name with
      | "YAML" => readVersion c
      | "TAG" => readShorthand c
      | _ => none
    let c := c.skipWhile isBlank
    let c := if c.startsWith '#' then c.skipWhile (!isBreak ·) else c
    if !endsLine c.rest then none
    else
      some { s.push kind s.cursor.line with cursor := if c.atBreak then c.skipBreak else c }

def leaveBlocks (s : Scanner) : Option Scanner := do
  let s ← (s.unindent (-1)).dropKey
  some { s with keyAllowed := false }

def openFlow (s : Scanner) (kind : TokenKind) : Option Scanner := do
  let s ← s.noteKey
  some { s.pushIndicator kind 1 with key := none, outerKeys := s.key :: s.outerKeys,
                                     keyAllowed := true }

def closeFlow (s : Scanner) (kind : TokenKind) : Option Scanner := do
  let s ← s.dropKey
  let s := { s with keyAllowed := false }
  match s.outerKeys with
  | [] => some (s.pushIndicator kind 1)
  | key :: rest => some { s.pushIndicator kind 1 with key, outerKeys := rest }

def readFlowEntry (s : Scanner) : Option Scanner := do
  let s ← s.dropKey
  some { s.pushIndicator .flowEntry 1 with keyAllowed := true }

def readBlockEntry (s : Scanner) : Option Scanner := do
  if !s.inFlow && !s.keyAllowed then none
  else
    let s ← (s.openBlockHere .blockSequenceStart).dropKey
    some { s.pushIndicator .blockEntry 1 with keyAllowed := true }

def readKey (s : Scanner) : Option Scanner := do
  if !s.inFlow && !s.keyAllowed then none
  else
    let s ← (s.openBlockHere .blockMappingStart).dropKey
    some { s.pushIndicator .key 1 with keyAllowed := !s.inFlow }

def readValue (s : Scanner) : Option Scanner := do
  match ← s.confirmKey with
  | some k =>
    let s := { s with
      tokens := s.tokens.insertIdxIfInBounds k.position ⟨.key, k.line⟩, key := none }
    let s := s.openBlock k.column k.position k.line .blockMappingStart
    some { s.pushIndicator .value 1 with keyAllowed := false }
  | none =>
    if !s.inFlow && !s.keyAllowed then none
    else
      let s := { s.openBlockHere .blockMappingStart with key := none }
      some { s.pushIndicator .value 1 with keyAllowed := !s.inFlow }

def readAnchorLike (s : Scanner) (kind : List Char → TokenKind) : Option Scanner := do
  let s ← s.noteKey
  { s with keyAllowed := false }.readAnchor kind

def readTagToken (s : Scanner) : Option Scanner := do
  let s ← s.noteKey
  { s with keyAllowed := false }.readTag

def readBlockScalar (s : Scanner) (literal : Bool) : Option Scanner := do
  let s ← s.dropKey
  let (text, c) ← readBlock literal s.indent s.cursor
  let kind := .scalar text (if literal then .literal else .folded)
  some { s.push kind s.cursor.line with cursor := c, keyAllowed := true }

def readQuotedScalar (s : Scanner) (single : Bool) : Option Scanner := do
  let s ← s.noteKey
  let g ← readQuoted single s.cursor
  let kind := .scalar g.text.reverse (if single then .singleQuoted else .doubleQuoted)
  some { s.push kind s.cursor.line with cursor := g.cursor, keyAllowed := false }

def readPlainScalar (s : Scanner) : Option Scanner := do
  let s ← s.noteKey
  let g ← readPlain s.inFlow s.indent s.cursor
  some { s.push (.scalar g.text.reverse .plain) s.cursor.line with
    cursor := g.cursor, keyAllowed := g.leading }

def startsPlain (flow : Bool) (c : Char) (rest : List Char) : Bool :=
  if c == '-' then !rest.head?.any isBlank
  else if c == '?' || c == ':' then !flow && !endsWord rest
  else
    !(isBlank c || isBreak c || ",[]\x7b\x7d#&*!|>\"%@".toList.contains c ||
      c.toNat == 0x27 || c.toNat == 0x60)

def readToken (s : Scanner) (c : Char) (rest : List Char) : Option Scanner :=
  if c == '[' then s.openFlow .flowSequenceStart
  else if c == '\x7b' then s.openFlow .flowMappingStart
  else if c == ']' then s.closeFlow .flowSequenceEnd
  else if c == '\x7d' then s.closeFlow .flowMappingEnd
  else if c == ',' then s.readFlowEntry
  else if c == '-' && endsWord rest then s.readBlockEntry
  else if c == '?' && (s.inFlow || endsWord rest) then s.readKey
  else if c == ':' && (s.inFlow || endsWord rest) then s.readValue
  else if c == '*' then s.readAnchorLike .alias
  else if c == '&' then s.readAnchorLike .anchor
  else if c == '!' then s.readTagToken
  else if c == '|' && !s.inFlow then s.readBlockScalar true
  else if c == '>' && !s.inFlow then s.readBlockScalar false
  else if c.toNat == 0x27 then s.readQuotedScalar true
  else if c == '"' then s.readQuotedScalar false
  else if startsPlain s.inFlow c rest then s.readPlainScalar
  else none

/-- A comment on the line of a token goes with it, but not after the `-` of an entry. -/
def skipTrailingComment (s : Scanner) : Scanner :=
  if s.tokens.back?.any (·.kind == .blockEntry) then s
  else { s with cursor := s.cursor.skipLineComment }

/-- Reads one token and what belongs before it. -/
def step (s : Scanner) : Option Scanner :=
  let (c, keyAllowed) := skipToToken s.inFlow (s.cursor.rest.length + 1) s.cursor s.keyAllowed
  let s := { s with cursor := c, keyAllowed }.unindent c.column
  match c.rest with
  | [] => s.leaveBlocks.map fun s =>
      s.push .streamEnd (if c.column = 0 then c.line else c.line + 1)
  | x :: rest =>
    if c.column = 0 && x == '%' then s.leaveBlocks.bind readDirective
    else if c.atMarker '-' then s.leaveBlocks.map (·.pushIndicator .documentStart 3)
    else if c.atMarker '.' then s.leaveBlocks.map (·.pushIndicator .documentEnd 3)
    else (s.readToken x rest).map skipTrailingComment

def atEnd (s : Scanner) : Bool := s.tokens.back?.any (·.kind == .streamEnd)

end Scanner

/-- The tokens of a text, up to the first place where it is malformed. -/
structure TokenStream where
  tokens : Array Token
  complete : Bool

namespace TokenStream

def scan : Nat → Scanner → TokenStream
  | 0, s => ⟨s.tokens, s.atEnd⟩
  | fuel + 1, s =>
    if s.atEnd then ⟨s.tokens, true⟩
    else
      match s.step with
      | some next => scan fuel next
      | none => ⟨s.tokens, false⟩

def isAllowed (c : Char) : Bool :=
  let n := c.toNat
  n == 0x09 || n == 0x0a || n == 0x0d || (0x20 ≤ n && n ≤ 0x7e) || n == 0x85 ||
    (0xa0 ≤ n && n ≤ 0xd7ff) || (0xe000 ≤ n && n ≤ 0xfffd) || 0x10000 ≤ n

/-- A byte order mark at the very start is no part of the text. -/
def ofText (text : List Char) : TokenStream :=
  let text := if text.head? == some '\ufeff' then text.drop 1 else text
  if text.all isAllowed then scan (text.length + 1) (.start text)
  else ⟨#[], false⟩

/-- A token. The reader looks two tokens ahead, so a malformed place hides those before it. -/
def get? (s : TokenStream) (i : Nat) : Option Token :=
  if !s.complete && s.tokens.size ≤ i + 2 then none else s.tokens[i]?

end TokenStream

end DualRail.Yaml
