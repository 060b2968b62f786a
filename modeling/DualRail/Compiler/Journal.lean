import DualRail.Compiler.Compile

/-!
The journal of a compilation as text: one line for an event, with its level, what happened and the
particulars.
-/

namespace DualRail.Event

variable {R : Type} [Quantity R]

/-- Single gates are only of interest when something is looked for. -/
def level : Event R → String
  | .programCompiled .. => "info"
  | _ => "debug"

def headline : Event R → String
  | .gateRejected .. => "gate rejected"
  | .gateCompiled .. => "gate compiled"
  | .programCompiled .. => "circuit compiled"

inductive Detail (R : Type) where
  | text (s : String)
  | int (i : Int)
  | ints (is : List Int)
  | bool (b : Bool)
  | quantity (x : R)

def Detail.show : Detail R → String
  | .text s => Text.quoted s
  | .int i => toString i
  | .ints is => "[" ++ ", ".intercalate (is.map toString) ++ "]"
  | .bool b => if b then "true" else "false"
  | .quantity x => Quantity.shortest x

def details : Event R → List (String × Detail R)
  | .gateRejected index kind f =>
    [("index", .int index), ("kind", .text kind), ("error", .text f.message)]
  | .gateCompiled index kind qubits pairs modes =>
    [("index", .int index), ("kind", .text kind), ("qubits", .ints qubits),
     ("ancilla_pairs", .int pairs), ("modes", .int modes)]
  | .programCompiled name qubits gates modes entries heralded success =>
    [("name", .text name), ("qubits", .int qubits), ("gates", .int gates), ("modes", .int modes),
     ("entries", .int entries), ("heralded", .bool heralded),
     ("success_probability", .quantity success)]

def text (e : Event R) : String :=
  e.level ++ "\t" ++ e.headline ++ "\t" ++
    ", ".intercalate (e.details.map fun (name, d) => name ++ ": " ++ d.show)

end DualRail.Event
