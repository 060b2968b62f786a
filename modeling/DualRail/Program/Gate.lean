import DualRail.Decimal.Reading
import DualRail.Failure
import DualRail.Quantity
import DualRail.Text.Blank

/-!
Gates as a program states them: a kind, the qubits it acts on and its parameters. The compact text
of a gate is its kind, the parameters in parentheses if there are any, and the qubits after blanks:
`u(0.1,0.2,0.3) 1`. `Gate.parse` reads that form with any white space around its parts.
-/

namespace DualRail

structure Gate (R : Type) where
  kind : String
  qubits : List Int
  params : List R
  deriving DecidableEq, Repr

namespace Gate

def text {R : Type} [Quantity R] (g : Gate R) : String :=
  let params :=
    if g.params.isEmpty then ""
    else "(" ++ ",".intercalate (g.params.map Quantity.shortest) ++ ")"
  g.kind ++ params ++ String.join (g.qubits.map fun q => " " ++ toString q)

structure Parts where
  kind : List Char
  /-- The text between the parentheses. -/
  params : List Char
  /-- The text after the kind and the parameters. -/
  qubits : List Char
  deriving DecidableEq, Repr

/-- Cuts trimmed text at the first parentheses, if the first word has an opening one. A closing
parenthesis must follow it, and none may stand before it. -/
def split? (s : List Char) : Option Parts :=
  let head := s.takeWhile (!Text.isBlank ·)
  if head.contains '(' then
    let kind := head.takeWhile (· != '(')
    let after := s.drop (kind.length + 1)
    if kind.contains ')' || !after.contains ')' then none
    else some ⟨kind, after.takeWhile (· != ')'), (after.dropWhile (· != ')')).drop 1⟩
  else some ⟨head, [], s.drop head.length⟩

def malformed {α : Type} (s : List Char) (note : Note) : Except Failure α :=
  refuse .malformedGate [.gateText (String.ofList s), note]

def paramPieces (list : List Char) : List (List Char) :=
  let list := Text.trim list
  if list.isEmpty then [] else Text.splitAt ',' list

def readParam (s piece : List Char) : Except Failure Float :=
  match Decimal.readFloat? (Text.trim piece) with
  | some x => .ok x
  | none => malformed s (.parameterText (String.ofList piece))

def readQubit (s piece : List Char) : Except Failure Int :=
  match Decimal.readInt? piece with
  | some q => .ok q
  | none => malformed s (.qubitText (String.ofList piece))

def parseTrimmed (s : List Char) : Except Failure (Gate Float) :=
  match split? s with
  | none => malformed s .unclosedParameters
  | some parts => do
    let params ← (paramPieces parts.params).mapM (readParam s)
    if parts.kind.isEmpty then malformed s .missingKind
    else
      let qubits ← (Text.fields parts.qubits).mapM (readQubit s)
      return ⟨String.ofList parts.kind, qubits, params⟩

def parse (text : String) : Except Failure (Gate Float) := parseTrimmed (Text.trim text.toList)

end Gate

end DualRail
