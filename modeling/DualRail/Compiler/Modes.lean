import DualRail.Processor.Basic

/-!
Modes handed out during a compilation. Qubit `i` has the rails `2 i` and `2 i + 1`; ancilla modes
come after all qubits, in pairs and in the order they are asked for.
-/

namespace DualRail

structure ModeSupply where
  qubits : Nat
  width : Nat
  deriving DecidableEq, Repr

def ModePair.startingAt (start : Nat) : ModePair := ⟨start, start + 1⟩

namespace ModeSupply

def ofQubits (n : Int) : Except Failure ModeSupply :=
  if n ≤ 0 then refuse .noQubits [.programQubits n]
  else do
    let count ← Storage.reserve n 16
    return ⟨count, 2 * count⟩

def qubit (q : Nat) : ModePair := .startingAt (2 * q)

def qubitModes (s : ModeSupply) : List ModePair := (List.range s.qubits).map qubit

def ancillaModes (s : ModeSupply) : Nat := s.width - 2 * s.qubits

def pairsFrom (s : ModeSupply) (count : Nat) : List ModePair :=
  (List.range count).map fun i => .startingAt (s.width + 2 * i)

def advance (s : ModeSupply) (count : Nat) : ModeSupply := { s with width := s.width + 2 * count }

/-- Hands out pairs; a request for none or fewer gives nothing. -/
def allocate (s : ModeSupply) (pairs : Int) : Except Failure (List ModePair × ModeSupply) := do
  let count ← Storage.reserve pairs.toNat 16
  return (s.pairsFrom count, s.advance count)

end ModeSupply

def railsOf (pairs : List ModePair) : List Int := pairs.flatMap fun p => [p.zero, p.one]

end DualRail
