import DualRail.Program.Gate

/-!
Programs: a number of qubits and a list of gates on them. `Program.validate` reports every malformed
gate, each with its index.
-/

namespace DualRail

structure Program (R : Type) where
  name : String
  qubits : Int
  gates : List (Gate R)
  deriving DecidableEq, Repr

variable {R : Type} [Quantity R]

def maxArity : Nat := 2

namespace Gate

/-- What is wrong with the operands, in order: for each one its range, then whether an earlier one
is the same. -/
def operandFaults (n : Int) : List Int → List Int → List Defect.Fault
  | _, [] => []
  | earlier, q :: rest =>
    (if q < 0 || n ≤ q then [.operandRange q n] else []) ++
      (earlier.filter (· == q)).map (fun _ => .repeatedOperand q) ++
      operandFaults n (earlier ++ [q]) rest

def faults (n : Int) (g : Gate R) : List Defect.Fault :=
  if (Text.trim g.kind.toList).isEmpty then [.emptyKind]
  else if g.qubits.isEmpty || maxArity < g.qubits.length then [.operandCount]
  else
    operandFaults n [] g.qubits ++
      (g.params.filter (!Quantity.isFinite ·)).map fun _ => .badParameter

def defects (n : Int) (index : Nat) (g : Gate R) : List Defect :=
  (g.faults n).map fun fault => ⟨index, g.text, fault⟩

end Gate

namespace Program

def defectsFrom (n : Int) : Nat → List (Gate R) → List Defect
  | _, [] => []
  | index, g :: rest => g.defects n index ++ defectsFrom n (index + 1) rest

def defects (p : Program R) : List Defect := defectsFrom p.qubits 0 p.gates

def validate (p : Program R) : Except Failure Unit :=
  if p.qubits ≤ 0 then refuse .qubitCount [.programQubits p.qubits]
  else if p.defects.isEmpty then .ok ()
  else .error ⟨[], .defects p.defects⟩

end Program

end DualRail
