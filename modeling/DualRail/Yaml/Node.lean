import DualRail.Failure
import DualRail.Yaml.TokenStream

/-!
A YAML document as a tree. Scalars keep their text and style, since how a scalar is meant depends on
both; nodes keep the line they start on, counted from one. An alias names the anchored node it
stands for, which may be a node around it.
-/

namespace DualRail.Yaml

inductive Tag where
  | null
  | bool
  | int
  | float
  | str
  | binary
  | timestamp
  | merge
  | other (name : String)
  deriving DecidableEq, Repr

/-- Tags under the standard prefix are known by their last part. -/
def Tag.ofText (text : String) : Tag :=
  let name :=
    if text.startsWith "tag:yaml.org,2002:" then (text.drop 18).toString
    else if text.startsWith "!!" then (text.drop 2).toString
    else ""
  match name with
  | "null" => .null
  | "bool" => .bool
  | "int" => .int
  | "float" => .float
  | "str" => .str
  | "binary" => .binary
  | "timestamp" => .timestamp
  | "merge" => .merge
  | _ => .other text

inductive Node where
  | scalar (line : Nat) (tag : Option Tag) (text : String) (style : ScalarStyle)
  | sequence (line : Nat) (tag : Option Tag) (items : List Node)
  | mapping (line : Nat) (tag : Option Tag) (pairs : List (Node × Node))
  | alias (line : Nat) (name : String) (anchor : Nat)

namespace Node

def line : Node → Nat
  | .scalar line .. | .sequence line .. | .mapping line .. | .alias line .. => line

def blank (line : Nat) : Node := .scalar (line + 1) none "" .plain

end Node

/-- A document and its anchored nodes, each under its number. -/
structure Document where
  root : Node
  anchored : List (Nat × Node)
  /-- The number of tokens it was read from; no node is nested deeper. -/
  extent : Nat

/-- The node itself, or the one an alias stands for. -/
def Document.target (d : Document) (n : Node) : Option Node :=
  match n with
  | .alias _ _ anchor => (d.anchored.find? (·.1 == anchor)).map (·.2)
  | n => some n

structure Builder where
  position : Nat
  shorthands : List (List Char × List Char)
  /-- The anchors so far, the last first, with their numbers. -/
  anchors : List (List Char × Nat)
  anchored : List (Nat × Node)

abbrev Build := ReaderT TokenStream (StateT Builder Option)

namespace Build

def malformed {α : Type} : Build α := fun _ _ => none

def peek : Build Token := fun ts b => (ts.get? b.position).map (·, b)

def skip : Build Unit := modify fun b => { b with position := b.position + 1 }

def anchorNamed (name : List Char) : Build Nat := do
  match (← get).anchors.find? (·.1 == name) with
  | some (_, number) => return number
  | none => malformed

structure Properties where
  anchor : Option (List Char)
  tag : Option Tag
  line : Nat

/-- The tag a handle and a suffix stand for; a tag `!` says nothing. -/
def tagOf (handle suffix : List Char) : Build (Option Tag) := do
  let text ←
    if handle.isEmpty then pure suffix
    else
      match (← get).shorthands.find? (·.1 == handle) with
      | some (_, expansion) => pure (expansion ++ suffix)
      | none => malformed
  return if text == ['!'] then none else some (.ofText (String.ofList text))

def takeAnchor : Build (Option (List Char)) := do
  match (← peek).kind with
  | .anchor name => skip; return some name
  | _ => return none

def takeTag : Build (Option (Option Tag)) := do
  match (← peek).kind with
  | .tag handle suffix => do
    skip
    return some (← tagOf handle suffix)
  | _ => return none

def takeProperties : Build (Option Properties) := do
  let line := (← peek).line
  let early ← takeAnchor
  let tag ← takeTag
  let late ← if early.isNone && tag.isSome then takeAnchor else pure none
  let anchor := early.or late
  return if anchor.isNone && tag.isNone then none else some ⟨anchor, tag.join, line⟩

/-- Gives an anchor its number before the node's content is read. -/
def enroll (props : Option Properties) : Build (Option Nat) := do
  match props.bind (·.anchor) with
  | some name =>
    let number := (← get).anchors.length
    modify fun b => { b with anchors := (name, number) :: b.anchors }
    return some number
  | none => return none

def record (number : Option Nat) (n : Node) : Build Unit :=
  match number with
  | some i => modify fun b => { b with anchored := (i, n) :: b.anchored }
  | none => pure ()

def endsBlockEntry : TokenKind → Bool
  | .blockEntry | .blockEnd => true
  | _ => false

def endsPairPart : TokenKind → Bool
  | .key | .value | .blockEnd => true
  | _ => false

def endsFlowItem : TokenKind → Bool
  | .flowEntry | .flowSequenceEnd => true
  | _ => false

def endsFlowPair : TokenKind → Bool
  | .flowEntry | .flowMappingEnd => true
  | _ => false

mutual

/-- Reads a node; `block` admits blocks, `bare` a list whose entries are not indented. -/
def node : Nat → Bool → Bool → Build Node
  | 0, _, _ => malformed
  | fuel + 1, block, bare => do
    match (← peek).kind with
    | .alias name =>
      let line := (← peek).line
      skip
      return .alias (line + 1) (String.ofList name) (← anchorNamed name)
    | _ =>
      let props ← takeProperties
      let t ← peek
      let line := (props.elim t.line (·.line)) + 1
      let tag := props.bind (·.tag)
      let number ← enroll props
      let n ← do
        match t.kind with
        | .scalar text style =>
          skip
          pure (.scalar line tag (String.ofList text) style)
        | .flowSequenceStart =>
          skip
          pure (.sequence line tag (← flowItems fuel true))
        | .flowMappingStart =>
          skip
          pure (.mapping line tag (← flowPairs fuel true))
        | .blockSequenceStart =>
          if block then
            skip
            pure (.sequence line tag (← blockItems fuel))
          else leftOut props line
        | .blockMappingStart =>
          if block then
            skip
            pure (.mapping line tag (← blockPairs fuel))
          else leftOut props line
        | .blockEntry =>
          if bare then pure (.sequence line tag (← bareItems fuel)) else leftOut props line
        | _ => leftOut props line
      record number n
      return n

def leftOut (props : Option Properties) (line : Nat) : Build Node :=
  match props with
  | some p => pure (.scalar line p.tag "" .plain)
  | none => malformed

def blockItems : Nat → Build (List Node)
  | 0 => malformed
  | fuel + 1 => do
    let t ← peek
    match t.kind with
    | .blockEntry =>
      skip
      let item ←
        if endsBlockEntry (← peek).kind then pure (.blank t.line) else node fuel true false
      return item :: (← blockItems fuel)
    | .blockEnd => skip; return []
    | _ => malformed

def bareItems : Nat → Build (List Node)
  | 0 => malformed
  | fuel + 1 => do
    let t ← peek
    match t.kind with
    | .blockEntry =>
      skip
      let next := (← peek).kind
      let item ←
        if next == .blockEntry || endsPairPart next then pure (.blank t.line)
        else node fuel true false
      return item :: (← bareItems fuel)
    | _ => return []

def blockPairs : Nat → Build (List (Node × Node))
  | 0 => malformed
  | fuel + 1 => do
    let t ← peek
    match t.kind with
    | .key =>
      skip
      let key ← if endsPairPart (← peek).kind then pure (.blank t.line) else node fuel true true
      let value ← blockValue fuel
      return (key, value) :: (← blockPairs fuel)
    | .blockEnd => skip; return []
    | _ => malformed

def blockValue : Nat → Build Node
  | 0 => malformed
  | fuel + 1 => do
    let t ← peek
    match t.kind with
    | .value =>
      skip
      if endsPairPart (← peek).kind then return .blank t.line else node fuel true true
    | _ => return .blank t.line

def flowItems : Nat → Bool → Build (List Node)
  | 0, _ => malformed
  | fuel + 1, first => do
    if (← peek).kind == .flowSequenceEnd then
      skip
      return []
    else
      separator first
      let t ← peek
      match t.kind with
      | .flowSequenceEnd => skip; return []
      | .key =>
        skip
        let pair ← flowSinglePair fuel
        return .mapping (t.line + 1) none [pair] :: (← flowItems fuel false)
      | _ =>
        let item ← node fuel false false
        return item :: (← flowItems fuel false)

def separator (first : Bool) : Build Unit := do
  if first then return
  else if (← peek).kind == .flowEntry then skip
  else malformed

def flowSinglePair : Nat → Build (Node × Node)
  | 0 => malformed
  | fuel + 1 => do
    let t ← peek
    let key ←
      if t.kind == .value || endsFlowItem t.kind then do
        skip
        pure (.blank t.line)
      else node fuel false false
    let value ← flowValue fuel endsFlowItem
    return (key, value)

def flowValue : Nat → (TokenKind → Bool) → Build Node
  | 0, _ => malformed
  | fuel + 1, ends => do
    let t ← peek
    match t.kind with
    | .value =>
      skip
      let next ← peek
      if ends next.kind then return .blank next.line else node fuel false false
    | _ => return .blank t.line

def flowPairs : Nat → Bool → Build (List (Node × Node))
  | 0, _ => malformed
  | fuel + 1, first => do
    if (← peek).kind == .flowMappingEnd then
      skip
      return []
    else
      separator first
      let t ← peek
      match t.kind with
      | .flowMappingEnd => skip; return []
      | .key =>
        skip
        let next ← peek
        let key ←
          if next.kind == .value || endsFlowPair next.kind then pure (.blank next.line)
          else node fuel false false
        let value ← flowValue fuel endsFlowPair
        return (key, value) :: (← flowPairs fuel false)
      | _ =>
        let key ← node fuel false false
        let value := .blank (← peek).line
        return (key, value) :: (← flowPairs fuel false)

end

/-- Reads the directives before a document: one version at most, and no handle twice. -/
def directives : Nat → Bool → List (List Char) → Build Unit
  | 0, _, _ => malformed
  | fuel + 1, versioned, handles => do
    match (← peek).kind with
    | .version major minor =>
      if versioned || major ≠ 1 || minor ≠ 1 then malformed
      else
        skip
        directives fuel true handles
    | .tagShorthand handle expansion =>
      if handles.contains handle then malformed
      else
        skip
        modify fun b => { b with shorthands := (handle, expansion) :: b.shorthands }
        directives fuel versioned (handle :: handles)
    | _ => pure ()

def opensDocument : TokenKind → Bool
  | .version .. | .tagShorthand .. | .documentStart => true
  | _ => false

def endsDocument (kind : TokenKind) : Bool :=
  opensDocument kind || kind == .documentEnd || kind == .streamEnd

def document (fuel : Nat) : Build (Option Node) := do
  skip
  let first := (← peek).kind
  if first == .streamEnd then return none
  else if opensDocument first then
    directives fuel false []
    if (← peek).kind != .documentStart then malformed
    else
      skip
      let t ← peek
      let root ← if endsDocument t.kind then pure (.blank t.line) else node fuel true false
      let _ ← peek
      return some root
  else
    let root ← node fuel true false
    let _ ← peek
    return some root

end Build

/-- The first document of a text; what comes after it is not looked at. -/
def Document.parse (text : String) : Except Cause Document :=
  let ts := TokenStream.ofText text.toList
  let start : Builder :=
    ⟨0, [(['!'], ['!']), (['!', '!'], "tag:yaml.org,2002:".toList)], [], []⟩
  match Build.document (3 * ts.tokens.size + 8) ts start with
  | none => .error .malformedDocument
  | some (none, _) => .error .endOfInput
  | some (some root, b) => .ok ⟨root, b.anchored, ts.tokens.size⟩

end DualRail.Yaml
