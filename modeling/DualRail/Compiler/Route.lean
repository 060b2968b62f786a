import DualRail.Catalog.Fragment
import DualRail.Compiler.Modes

/-!
Routing. The modes of a fragment, listed by position, form a block; the forward permutation brings
the block to consecutive modes from its least mode on and keeps all other modes in their order, and
the inverse brings everything back. A fragment that only rewires is folded with its route into a
single permutation.
-/

namespace DualRail

variable {α R : Type}

def offsetOverrun? (width : Nat) : List Int → Option Overrun
  | [] => none
  | off :: rest =>
    if off < 0 || (width : Int) ≤ off then some (.index off width)
    else if (width : Int) ≤ off + 1 then some (.index (off + 1) width)
    else offsetOverrun? width rest

/-- The network mode at every position of a fragment: operand rails at the operand offsets, ancilla
modes at the remaining positions. -/
def fragmentBlock (f : Fragment α R) (operands ancillas : List ModePair) :
    Except Failure (List Int) := do
  let positions ← f.ancillaPositions
  let extra := railsOf ancillas
  if positions.length ≠ extra.length || f.qubitOffsets.length ≠ operands.length then
    match f.circuit with
    | none => .error (.overrun .absent)
    | some n => refuse .modeCountMismatch [.freePositions n.name positions.length extra.length]
  else
    match offsetOverrun? f.width f.qubitOffsets with
    | some o => .error (.overrun o)
    | none =>
      let pairs := (f.qubitOffsets.zip operands).flatMap fun (off, pair) =>
        [(off.toNat, pair.zero), (off.toNat + 1, pair.one)]
      return (scatter (pairs ++ positions.zip extra) (Array.replicate f.width 0)).toList

/-- The first mode of a block that lies outside `0 … m - 1` or stood in it before. -/
def badBlockMode? (m : Int) : List Int → List Int → Option Int
  | _, [] => none
  | earlier, mode :: rest =>
    if mode < 0 || m ≤ mode || earlier.contains mode then some mode
    else badBlockMode? m (mode :: earlier) rest

/-- The least mode of a block, which must consist of distinct modes below `m`. -/
def blockStart (m : Int) (block : List Int) : Except Failure Nat :=
  if block.isEmpty || m < block.length then
    refuse .routeInvariant [.block block.length m]
  else
    match badBlockMode? m [] block with
    | some mode => refuse .routeInvariant [.blockMode mode m]
    | none =>
      let start := (block.map Int.toNat).foldl Nat.min m.toNat
      if m < start + block.length then
        refuse .routeInvariant [.blockEnd start (start + block.length) m]
      else .ok start

structure Filling where
  cells : Array Nat
  next : Nat

/-- A mode of the block has its place already. Any other mode takes the next place, which jumps over
those of the block. -/
def Filling.pass (block : List Nat) (start : Nat) (s : Filling) (mode : Nat) : Filling :=
  if block.contains mode then s
  else
    let place := if s.next = start then start + block.length else s.next
    ⟨s.cells.setIfInBounds mode place, place + 1⟩

/-- The vector of `m` modes that brings the block to the places from `start` on: first the places of
the block are written, then one pass over all modes fills in the others. -/
def gather (m : Nat) (block : List Nat) (start : Nat) : List Nat :=
  let cells := scatter (block.zipIdx.map fun (mode, j) => (mode, start + j)) (Array.replicate m 0)
  ((List.range m).foldl (Filling.pass block start) ⟨cells, 0⟩).cells.toList

structure Forward where
  vector : List Nat
  start : Nat
  deriving DecidableEq, Repr

def forwardVector (m : Int) (block : List Int) : Except Failure Forward := do
  let start ← blockStart m block
  return ⟨gather m.toNat (block.map Int.toNat) start, start⟩

def storedForward (m : Int) (block : List Int) : Except Failure Forward := do
  let start ← blockStart m block
  let count ← Storage.reserve m 8
  return ⟨gather count (block.map Int.toNat) start, start⟩

structure Route where
  block : List Int
  start : Nat
  forward : Permutation
  inverse : Permutation

/-- Reads a forward vector as a permutation, which its inverse must undo. -/
def Forward.route (f : Forward) (block : List Int) : Except Failure Route := do
  let forward ← noting (.because .routeInvariant)
    (Permutation.ofVector (f.vector.map Int.ofNat))
  let inverse := forward.inverse
  match forward.andThen inverse with
  | .ok p =>
    if p.isIdentity then return ⟨block, f.start, forward, inverse⟩
    else refuse .routeInvariant [.notInverted forward.text]
  | .error _ => refuse .routeInvariant [.notInverted forward.text]

def planRoute (m : Int) (block : List Int) : Except Failure Route := do
  (← forwardVector m block).route block

/-- The route whose forward vector has a store of its own. -/
def storedRoute (m : Int) (block : List Int) : Except Failure Route := do
  (← storedForward m block).route block

/-- Route and fragment as one permutation of `m` modes, if the fragment only rewires. -/
def Route.fold [Quantity R] (r : Route) (m : Int) (f : Fragment α R) :
    Except Failure (Option Permutation) := do
  match ← f.asPermutation with
  | none => return none
  | some inner =>
    let lifted ← noting (.because .modeCountMismatch) (inner.lift m r.start)
    let through ← noting (.because .routeInvariant) (r.forward.andThen lifted)
    return some (← noting (.because .routeInvariant) (through.andThen r.inverse))

def checkOperandsFrom (n : Int) : List Int → List Int → Except Failure Unit
  | _, [] => .ok ()
  | earlier, q :: rest =>
    if q < 0 || n ≤ q then refuse .invalidOperand [.qubitOf q n]
    else if earlier.contains q then refuse .invalidOperand [.usedTwice q]
    else checkOperandsFrom n (q :: earlier) rest

/-- Operands are as many as the gate takes, qubits of the program, and all different. -/
def checkOperands (qubits : List Int) (arity n : Int) : Except Failure Unit :=
  if (qubits.length : Int) ≠ arity then refuse .invalidOperand [.operands qubits.length arity]
  else checkOperandsFrom n [] qubits

end DualRail
