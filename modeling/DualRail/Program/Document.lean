import DualRail.Program.Basic
import DualRail.Yaml.Content

/-!
Programs as YAML documents: `name`, `qubits` and `gates`, a gate being its compact text or a mapping
of `kind`, `qubits` and `params`. Reading goes on over values of a wrong type, so that a malformed
gate further down is still reported; at the end any such value refuses the document.
-/

namespace DualRail.Program

open Yaml (Content Document Node ScalarStyle Value)

def content {R : Type} [Quantity R] (p : Program R) : List (String × Content) :=
  (if p.name.isEmpty then [] else [("name", .text p.name)]) ++
    [("qubits", .int p.qubits), ("gates", .list (p.gates.map fun g => .text g.text))]

def encode {R : Type} [Quantity R] (p : Program R) : String := Content.document p.content

/-- A reading of a document; the state tells whether some value had a wrong type. -/
abbrev Reading := StateT Bool (Except Failure)

namespace Reading

def mistyped {α : Type} (a : α) : Reading α := do
  set true
  return a

def malformed {α : Type} : Reading α := throw (.of .malformedDocument [])

end Reading

open Reading (mistyped malformed)

variable (d : Document)

def follow (n : Node) : Reading Node :=
  match d.target n with
  | some target => pure target
  | none => malformed

/-- Reads a scalar through `f`, which gives nothing for a value of a wrong type. Null leaves the
place empty. -/
def readScalar {α : Type} (f : String → Value → Option α) (n : Node) : Reading (Option α) := do
  match ← follow d n with
  | .scalar _ tag text style =>
    match Yaml.scalarValue? tag text style with
    | none => malformed
    | some .null => return none
    | some v =>
      match f text v with
      | some a => return some a
      | none => mistyped none
  | _ => mistyped none

def asString (text : String) : Value → Option String
  | .text s => some s
  | _ => some text

/-- A real number without its fraction. Beyond the words it is the least of them. -/
def truncate (x : Float) : Int :=
  if -9223372036854775808 ≤ x && x < 9223372036854775808 then x.toInt64.toInt
  else Word.min

def asInt (_ : String) : Value → Option Int
  | .int i => Decimal.inWord? i
  | .float x => if x ≤ 9223372036854775808 then some (truncate x) else none
  | _ => none

def asFloat (_ : String) : Value → Option Float
  | .int i => Decimal.decimal? (i < 0) i.natAbs 0
  | .float x => some x
  | _ => none

/-- A list. Items that are null or of a wrong type are left out, and null is the empty list. -/
def readList {α : Type} (item : Node → Reading (Option α)) (n : Node) :
    Reading (Option (List α)) := do
  match ← follow d n with
  | .sequence _ _ items => return some ((← items.mapM item).filterMap id)
  | .scalar _ tag text style =>
    match Yaml.scalarValue? tag text style with
    | none => malformed
    | some .null => return some []
    | some _ => mistyped none
  | _ => mistyped none

/-- What two keys are compared by: their kind and their own text. -/
def keyIdentity : Node → Nat × String
  | .scalar _ _ text _ => (0, text)
  | .sequence .. => (1, "")
  | .mapping .. => (2, "")
  | .alias _ name _ => (3, name)

def hasRepeatedKey (pairs : List (Node × Node)) : Bool :=
  !decide (pairs.map fun p => keyIdentity p.1).Nodup

structure GatePass where
  gate : Gate Float := ⟨"", [], []⟩
  done : List String := []

def gateFields : List String := ["kind", "qubits", "params"]

def readGateField (name : String) (n : Node) (g : Gate Float) : Reading (Gate Float) := do
  match name with
  | "kind" => return { g with kind := (← readScalar d asString n).getD g.kind }
  | "qubits" => return { g with qubits := (← readList d (readScalar d asInt) n).getD g.qubits }
  | _ => return { g with params := (← readList d (readScalar d asFloat) n).getD g.params }

def readGatePair (pass : GatePass) (pair : Node × Node) : Reading GatePass := do
  match ← readScalar d asString pair.1 with
  | none => return pass
  | some name =>
    if !gateFields.contains name then return pass
    else if pass.done.contains name then mistyped pass
    else return ⟨← readGateField d name pair.2 pass.gate, name :: pass.done⟩

def readGateMapping (pairs : List (Node × Node)) : Reading (Option (Gate Float)) := do
  match pairs.find? fun p => !gateFields.contains (keyIdentity p.1).2 with
  | some (key, _) =>
    throw (.of .malformedGate [.line key.line, .unknownField (keyIdentity key).2])
  | none =>
    if hasRepeatedKey pairs then mistyped none
    else return some (← pairs.foldlM (readGatePair d) {}).gate

def readGate (n : Node) : Reading (Option (Gate Float)) := do
  match ← follow d n with
  | .scalar line tag text style =>
    let null : Bool :=
      match tag with
      | none => style = .plain && (Value.ofPlain true text).tag == .null
      | some t => t == .null
    if null then readScalar d (fun _ _ => none) n
    else
      match noting (.line line) (Gate.parse text) with
      | .ok g => return some g
      | .error e => throw e
  | .mapping _ _ pairs => readGateMapping d pairs
  | other => throw (.of .malformedGate [.line other.line, .gateShape])

/-- A mapping being read into a program. -/
structure Pass where
  program : Program Float
  /-- The fields set from this mapping. -/
  done : List String := []
  /-- Within a merge, the fields that are settled already. -/
  settled : Option (List String) := none
  /-- What the mapping merges in. -/
  merge : Option Node := none

def isMergeKey : Node → Bool
  | .scalar _ tag text style =>
    text == "<<" && (tag == some .merge || (tag == none && style == .plain))
  | _ => false

def programFields : List String := ["name", "qubits", "gates"]

def readField (name : String) (n : Node) (p : Program Float) : Reading (Program Float) := do
  match name with
  | "name" => return { p with name := (← readScalar d asString n).getD p.name }
  | "qubits" => return { p with qubits := (← readScalar d asInt n).getD p.qubits }
  | _ => return { p with gates := (← readList d (readGate d) n).getD p.gates }

def readPair (pass : Pass) (pair : Node × Node) : Reading Pass := do
  if isMergeKey pair.1 then return { pass with merge := some pair.2 }
  else
    match ← readScalar d asString pair.1 with
    | none => return pass
    | some name =>
      if pass.settled.any (·.contains name) then return pass
      else
        let pass := { pass with settled := pass.settled.map (name :: ·) }
        if !programFields.contains name then mistyped pass
        else if pass.done.contains name then mistyped pass
        else
          return { pass with
            program := ← readField d name pair.2 pass.program, done := name :: pass.done }

def ownNames (pairs : List (Node × Node)) : List String :=
  pairs.filterMap fun p =>
    match d.target p.1 with
    | some (.scalar _ tag text style) =>
      match Yaml.scalarValue? tag text style with
      | some (.text s) => some s
      | _ => none
    | _ => none

def mergeSources : Node → List Node
  | .sequence _ _ items => items
  | n => [n]

/-- Reads a mapping into the program, then what it merges in. A mapping that merges in itself runs
out of `depth`. -/
def readMapping : Nat → Program Float × Option (List String) → List (Node × Node) →
    Reading (Program Float × Option (List String))
  | 0, _, _ => malformed
  | depth + 1, (program, settled), pairs => do
    if hasRepeatedKey pairs then mistyped (program, settled)
    else
      let pass ← pairs.foldlM (readPair d) { program, settled }
      match pass.merge with
      | none => return (pass.program, pass.settled)
      | some n =>
        let own := some (pass.settled.getD (ownNames d pairs))
        let (program, merged) ← (mergeSources n).foldlM (fun state source =>
          match d.target source with
          | some (.mapping _ _ inner) => readMapping depth state inner
          | _ => malformed) (pass.program, own)
        return (program, if settled.isSome then merged else none)

/-- Reads the root of a document. Null is the empty program. -/
def readRoot : Reading (Program Float) := do
  let empty : Program Float := ⟨"", 0, []⟩
  match d.root with
  | .mapping _ _ pairs => return (← readMapping d (d.extent + 1) (empty, none) pairs).1
  | n => do
    let _ ← readScalar d (fun _ _ => (none : Option Unit)) n
    return empty

def ofDocument : Except Failure (Program Float) :=
  match readRoot d |>.run false with
  | .error e => .error e
  | .ok (_, true) => .error (.of .mistypedDocument [])
  | .ok (p, false) => .ok p

/-- Reads the first document of a text and validates it. -/
def decode (text : String) : Except Failure (Program Float) := do
  let p ← noting .decoding <|
    match Document.parse text with
    | .error cause => .error (.of cause [])
    | .ok d => ofDocument d
  noting .validating p.validate
  return p

end DualRail.Program
