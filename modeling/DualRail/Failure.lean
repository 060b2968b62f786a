import DualRail.Text.Quoted

/-!
Why an operation fails. A failure has a root and the notes that were put in front of it on the way
out, outermost first; its message is the notes and the root, joined by `: `. Most roots are one of
the fixed causes; some notes name a second cause, and `Failure.wraps` sees both.
-/

namespace DualRail

/-- The fixed reasons for refusing a request. -/
inductive Cause where
  | badDimensions
  | indexOutOfBounds
  | dimensionMismatch
  | notSquare
  | noMatrix
  | notPermutation
  | componentRange
  | invalidWidth
  | notUnitary
  | noComponent
  | unsupportedGate
  | parameterCount
  | invalidEntry
  | duplicateKind
  | invalidFragment
  | qubitCount
  | emptyKind
  | operandCount
  | operandRange
  | repeatedOperand
  | badParameter
  | malformedGate
  | noNetwork
  | recordRange
  | invalidPair
  | unsorted
  | negativeCount
  | conflictingConditions
  | invalidProbability
  | occupationLength
  | invalidOperand
  | routeInvariant
  | modeCountMismatch
  | noQubits
  | cancelled
  | endOfInput
  | notFound
  | notDirectory
  | malformedDocument
  | mistypedDocument
  deriving DecidableEq, Repr

def Cause.text : Cause → String
  | .badDimensions => "matrix: dimensions must be > 0"
  | .indexOutOfBounds => "matrix: index out of bounds"
  | .dimensionMismatch => "matrix: dimension mismatch"
  | .notSquare => "matrix: matrix is not square"
  | .noMatrix => "matrix: nil matrix"
  | .notPermutation => "optics: vector is not a permutation"
  | .componentRange => "optics: component exceeds circuit modes"
  | .invalidWidth => "optics: invalid mode count"
  | .notUnitary => "optics: matrix is not unitary"
  | .noComponent => "optics: nil component"
  | .unsupportedGate => "catalog: unsupported gate"
  | .parameterCount => "catalog: wrong number of gate parameters"
  | .invalidEntry => "catalog: invalid entry"
  | .duplicateKind => "catalog: duplicate gate kind"
  | .invalidFragment => "catalog: invalid fragment"
  | .qubitCount => "circuit: qubit count must be positive"
  | .emptyKind => "circuit: gate kind is empty"
  | .operandCount => "circuit: gate takes one or two qubits"
  | .operandRange => "circuit: qubit index out of range"
  | .repeatedOperand => "circuit: repeated qubit operand"
  | .badParameter => "circuit: gate parameter is not finite"
  | .malformedGate => "circuit: malformed gate"
  | .noNetwork => "processor: nil network"
  | .recordRange => "processor: mode out of range"
  | .invalidPair => "processor: invalid qubit mode pair"
  | .unsorted => "processor: records not sorted by mode"
  | .negativeCount => "processor: negative photon count"
  | .conflictingConditions => "processor: heralds and postselection are exclusive"
  | .invalidProbability => "processor: success probability out of range"
  | .occupationLength => "processor: occupation length differs from mode count"
  | .invalidOperand => "compiler: invalid gate operand"
  | .routeInvariant => "compiler: permutation invariant violated"
  | .modeCountMismatch => "compiler: mode count mismatch"
  | .noQubits => "compiler: circuit has no qubits"
  | .cancelled => "context canceled"
  | .endOfInput => "EOF"
  | .notFound => "no such file or directory"
  | .notDirectory => "not a directory"
  | .malformedDocument => "malformed document"
  | .mistypedDocument => "document does not describe a circuit"

/-- An access outside storage. It ends the whole request; it has no text of its own, and nothing is
noted in front of it. -/
inductive Overrun where
  /-- More storage than can be addressed. -/
  | allocation
  | index (i : Int) (length : Nat)
  | slice (low high : Int) (capacity : Nat)
  /-- A part that is not there. -/
  | absent
  deriving DecidableEq, Repr

inductive Defect.Fault where
  | emptyKind
  | operandCount
  | operandRange (qubit : Int) (qubits : Int)
  | repeatedOperand (qubit : Int)
  | badParameter
  deriving DecidableEq, Repr

/-- A malformed gate of a program: its index, its text, and what is wrong with it. -/
structure Defect where
  index : Nat
  gate : String
  fault : Defect.Fault
  deriving DecidableEq, Repr

def Defect.cause (d : Defect) : Cause :=
  match d.fault with
  | .emptyKind => .emptyKind
  | .operandCount => .operandCount
  | .operandRange .. => .operandRange
  | .repeatedOperand _ => .repeatedOperand
  | .badParameter => .badParameter

def Defect.message (d : Defect) : String :=
  let detail :=
    match d.fault with
    | .operandRange qubit qubits => s!"qubit {qubit} of {qubits}: "
    | .repeatedOperand qubit => s!"qubit {qubit}: "
    | _ => ""
  s!"gate {d.index} ({d.gate}): " ++ detail ++ d.cause.text

inductive Setting where
  | tolerance
  | registry
  | journal
  | concurrency
  deriving DecidableEq, Repr

def Setting.text : Setting → String
  | .tolerance => "matrix: WithEpsilon: eps must be finite, non-negative"
  | .registry => "compiler: WithRegistry(nil)"
  | .journal => "compiler: WithLogger(nil)"
  | .concurrency => "compiler: WithConcurrency(n<1)"

inductive Usage where
  | tooFewArguments (least given : Nat)
  | unknownFlag (flag : String)
  | unknownShorthand (flag : Char) (cluster : String)
  | badFlag (text : String)
  | missingValue (flag : String)
  | missingShorthandValue (flag : Char) (cluster : String)
  | badBool (value flag : String)
  | badInt (value flag : String)
  | intRange (value flag : String)
  /-- With the commands that look like it. -/
  | unknownCommand (name path : String) (similar : List String)
  | unknownFormat (format : String)
  deriving DecidableEq, Repr

def Usage.text : Usage → String
  | .tooFewArguments least given =>
    s!"requires at least {least} arg(s), only received {given}"
  | .unknownFlag flag => "unknown flag: --" ++ flag
  | .unknownShorthand flag cluster =>
    "unknown shorthand flag: " ++ "'" ++ String.singleton flag ++ "'" ++ " in -" ++ cluster
  | .badFlag text => "bad flag syntax: " ++ text
  | .missingValue flag => "flag needs an argument: --" ++ flag
  | .missingShorthandValue flag cluster =>
    "flag needs an argument: " ++ "'" ++ String.singleton flag ++ "'" ++ " in -" ++ cluster
  | .badBool value flag =>
    "invalid argument " ++ Text.quoted value ++ " for " ++ Text.quoted flag ++
      " flag: strconv.ParseBool: parsing " ++ Text.quoted value ++ ": invalid syntax"
  | .badInt value flag =>
    "invalid argument " ++ Text.quoted value ++ " for " ++ Text.quoted flag ++
      " flag: strconv.ParseInt: parsing " ++ Text.quoted value ++ ": invalid syntax"
  | .intRange value flag =>
    "invalid argument " ++ Text.quoted value ++ " for " ++ Text.quoted flag ++
      " flag: strconv.ParseInt: parsing " ++ Text.quoted value ++ ": value out of range"
  | .unknownCommand name path similar =>
    "unknown command " ++ Text.quoted name ++ " for " ++ Text.quoted path ++
      if similar.isEmpty then ""
      else "\n\nDid you mean this?\n" ++ String.join (similar.map fun s => "\t" ++ s ++ "\n")
  | .unknownFormat format =>
    "unknown output format " ++ Text.quoted format ++ " (want table or yaml)"

inductive Root where
  | cause (c : Cause)
  | defects (ds : List Defect)
  | overrun (o : Overrun)
  | setting (s : Setting)
  | usage (u : Usage)
  /-- The text of a gate builder's own error. -/
  | builder (text : String)
  deriving DecidableEq, Repr

def Root.text : Root → String
  | .cause c => c.text
  | .defects ds => "; ".intercalate (ds.map Defect.message)
  | .overrun _ => ""
  | .setting s => s.text
  | .usage u => u.text
  | .builder text => text

inductive MatrixStep where
  | mul
  | adjoint
  | embed
  | allClose
  | isUnitary
  deriving DecidableEq, Repr

def MatrixStep.text : MatrixStep → String
  | .mul => "Mul"
  | .adjoint => "ConjugateTranspose"
  | .embed => "Embed"
  | .allClose => "AllClose"
  | .isUnitary => "IsUnitary"

inductive RecordKind where
  | source
  | herald
  deriving DecidableEq, Repr

def RecordKind.text : RecordKind → String
  | .source => "source"
  | .herald => "herald"

inductive Note where
  | cell (write : Bool) (row col : Int)
  | row (index columns want : Nat)
  | step (s : MatrixStep)
  | emptyVector
  | position (index : Nat) (value : Int) (last : Nat)
  | outputTwice (value : Int)
  | composing (first second : Nat)
  | lifting (width : Nat) (offset : Int) (modes : Int)
  | splitter (convention : String)
  | unitary (name : String)
  | newNetwork (name : String) (modes : Int)
  | placing (component : String) (width : Nat) (offset : Int) (modes : Nat) (network : String)
  | shrinking (network : String) (modes : Nat) (want : Int)
  | entry (network : String) (index : Nat) (component : String)
  | noCircuit
  | operandsDeclared (fragment : String) (given : Nat) (want : Int)
  | oddAncillas (fragment : String) (count : Nat)
  | span (fragment : String) (modes : Nat) (want : Nat)
  | operandOffset (fragment : String) (index : Nat) (offset : Int)
  | ancillaCount (fragment : String) (index : Nat)
  | fragmentSuccess (fragment probability : String)
  | catalogEntry (kind : String)
  | emptyAlias (kind : String)
  | gateName (name : String)
  | parameters (kind : String) (want : Int) (given : Nat)
  | building (kind : String)
  | programQubits (count : Int)
  | gateText (text : String)
  | unclosedParameters
  | parameterText (text : String)
  | missingKind
  | qubitText (text : String)
  | line (number : Nat)
  | unknownField (key : String)
  | gateShape
  | decoding
  | validating
  | loading
  | loadingFile (path : String)
  | opening (path : String)
  | pair (qubit : Nat) (zero one : Int)
  | recordOf (kind : RecordKind) (mode modes : Int)
  | recordAfter (kind : RecordKind) (mode previous : Int)
  | record (kind : RecordKind) (mode : Int)
  | condition (text : String)
  | probability (text : String)
  | occupation (given modes : Nat)
  | operands (given : Nat) (want : Int)
  | qubitOf (qubit : Int) (qubits : Int)
  | usedTwice (qubit : Int)
  | freePositions (fragment : String) (positions modes : Nat)
  | block (size : Nat) (modes : Int)
  | blockMode (mode modes : Int)
  | blockEnd (start stop modes : Int)
  | notInverted (permutation : String)
  | widths (network allocated : Nat)
  | fragmentWidth (width block : Nat)
  /-- A second cause in front of the root. -/
  | because (c : Cause)
  | gate (index : Nat) (kind : String)
  | program (index : Nat)
  | compiling
  deriving DecidableEq, Repr

def Note.text : Note → String
  | .cell write i j => (if write then "Dense.Set" else "Dense.At") ++ s!"({i},{j})"
  | .row index columns want => s!"NewDenseFrom: row {index} has {columns} columns, want {want}"
  | .step s => s.text
  | .emptyVector => "empty vector"
  | .position index value last => s!"position {index} maps to {value} outside 0..{last}"
  | .outputTwice value => s!"output {value} used twice"
  | .composing first second => s!"compose {first}-mode with {second}-mode"
  | .lifting width offset modes => s!"lift {width} modes at {offset} into {modes}"
  | .splitter convention => "beam splitter " ++ convention
  | .unitary name => "unitary " ++ Text.quoted name
  | .newNetwork name modes => "circuit " ++ Text.quoted name ++ s!" with {modes} modes"
  | .placing component width offset modes network =>
    component ++ s!" ({width} modes) at {offset} in {modes}-mode " ++ Text.quoted network
  | .shrinking network modes want =>
    "shrink " ++ Text.quoted network ++ s!" from {modes} to {want}"
  | .entry network index component =>
    Text.quoted network ++ s!" entry {index} (" ++ component ++ ")"
  | .noCircuit => "nil circuit"
  | .operandsDeclared fragment given want =>
    Text.quoted fragment ++ s!" declares {given} operands, want {want}"
  | .oddAncillas fragment count =>
    Text.quoted fragment ++ s!" has {count} ancilla modes, not whole pairs"
  | .span fragment modes want => Text.quoted fragment ++ s!" spans {modes} modes, want {want}"
  | .operandOffset fragment index offset =>
    Text.quoted fragment ++ s!" operand {index} at offset {offset}"
  | .ancillaCount fragment index =>
    Text.quoted fragment ++ s!" ancilla {index} has negative photon count"
  | .fragmentSuccess fragment value =>
    Text.quoted fragment ++ " success probability " ++ value
  | .catalogEntry kind => "entry " ++ Text.quoted kind
  | .emptyAlias kind => "entry " ++ Text.quoted kind ++ " has an empty alias"
  | .gateName name => Text.quoted name
  | .parameters kind want given => kind ++ s!" takes {want} parameters, got {given}"
  | .building kind => "build " ++ kind
  | .programQubits count => s!"{count} qubits"
  | .gateText text => "gate " ++ Text.quoted text
  | .unclosedParameters => "unclosed parameter list"
  | .parameterText text => "parameter " ++ Text.quoted text
  | .missingKind => "missing kind"
  | .qubitText text => "qubit " ++ Text.quoted text
  | .line number => s!"line {number}"
  | .unknownField key => "unknown gate field " ++ Text.quoted key
  | .gateShape => "gate must be a scalar or mapping"
  | .decoding => "decode circuit"
  | .validating => "validate circuit"
  | .loading => "load circuit"
  | .loadingFile path => "load circuit " ++ path
  | .opening path => "open " ++ path
  | .pair qubit zero one => s!"qubit {qubit} on ({zero},{one})"
  | .recordOf kind mode modes => kind.text ++ s!" on mode {mode} of {modes}"
  | .recordAfter kind mode previous => kind.text ++ s!" on mode {mode} after {previous}"
  | .record kind mode => kind.text ++ s!" on mode {mode}"
  | .condition text => "condition " ++ text
  | .probability text => text
  | .occupation given modes => s!"{given} values for {modes} modes"
  | .operands given want => s!"{given} operands, want {want}"
  | .qubitOf qubit qubits => s!"qubit {qubit} of {qubits}"
  | .usedTwice qubit => s!"qubit {qubit} used twice"
  | .freePositions fragment positions modes =>
    "fragment " ++ Text.quoted fragment ++ s!": {positions} free positions, {modes} ancilla modes"
  | .block size modes => s!"block of {size} modes in {modes}"
  | .blockMode mode modes => s!"block mode {mode} in {modes}"
  | .blockEnd start stop modes => s!"block [{start},{stop}) beyond {modes} modes"
  | .notInverted permutation => "forward " ++ permutation ++ " does not invert"
  | .widths network allocated => s!"network has {network} modes, allocator {allocated}"
  | .fragmentWidth width size => s!"fragment {width} modes, block {size}"
  | .because c => c.text
  | .gate index kind => s!"compiler: gate {index} (" ++ kind ++ ")"
  | .program index => s!"circuit {index}"
  | .compiling => "compile"

structure Failure where
  notes : List Note := []
  root : Root
  deriving DecidableEq, Repr

namespace Failure

def of (c : Cause) (notes : List Note) : Failure := ⟨notes, .cause c⟩

def overrun (o : Overrun) : Failure := ⟨[], .overrun o⟩

/-- Puts a note in front, except of an overrun. -/
def noted (note : Note) (f : Failure) : Failure :=
  match f.root with
  | .overrun _ => f
  | _ => { f with notes := note :: f.notes }

def message (f : Failure) : String :=
  ": ".intercalate (f.notes.map Note.text ++ [f.root.text])

def causes (f : Failure) : List Cause :=
  f.notes.filterMap (fun | .because c => some c | _ => none) ++
    match f.root with
    | .cause c => [c]
    | .defects ds => ds.map Defect.cause
    | _ => []

def wraps (f : Failure) (c : Cause) : Bool := f.causes.contains c

def gate? (f : Failure) : Option (Nat × String) :=
  f.notes.findSome? fun | .gate index kind => some (index, kind) | _ => none

end Failure

def noting {α : Type} (note : Note) (x : Except Failure α) : Except Failure α :=
  x.mapError (Failure.noted note)

def refuse {α : Type} (c : Cause) (notes : List Note) : Except Failure α :=
  .error (.of c notes)

end DualRail
