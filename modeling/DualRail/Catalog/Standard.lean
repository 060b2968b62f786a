import DualRail.Catalog.Registry

/-!
The standard gates. Every single-qubit gate acts on the two rails of its qubit: phases on the rail
of `1`, rotations as beam splitters, `x` as a swap of rails. The two-qubit gates rest on a
controlled NOT, either heralded by four ancilla modes (success 2/27) or postselected with two empty
ones (success 1/9).
-/

namespace DualRail.Standard

variable {R : Type} [Quantity R]

abbrev Piece (R : Type) := Nat × Component (Device R)

abbrev Builder (R : Type) := Request R → Except Failure (Fragment (Device R) R)

def num (n : Nat) : R := Quantity.ofNat n

def balanced : Component (Device R) := .device .balanced

def phase (phi : R) : Component (Device R) := .device (.phaseShifter phi)

def splitter (convention : Convention) (theta : R) : Component (Device R) :=
  .device (Device.splitter convention theta)

def rewire (vector : List Int) : Except Failure (Component (Device R)) :=
  return .perm (← Permutation.ofVector vector)

def assemble (width : Nat) (name : String) (parts : List (Piece R)) :
    Except Failure (Network (Device R)) := do
  (← Network.empty width name).addAll parts

def onQubit (kind : String) (layout : List R → Except Failure (List (Piece R))) : Builder R :=
  fun req => do
    let circuit ← assemble 2 kind (← layout req.params)
    return { circuit := some circuit, qubitOffsets := [0], ancillas := [], heralded := false,
             postSelect := false, success := 1 }

def phaseOnOne (phi : List R → R) (params : List R) : Except Failure (List (Piece R)) :=
  .ok [(1, phase (phi params))]

def first (params : List R) : R := params.getD 0 0

def noParts (_ : List R) : Except Failure (List (Piece R)) := .ok []

def hadamardParts (_ : List R) : Except Failure (List (Piece R)) := .ok [(0, balanced)]

def xParts (_ : List R) : Except Failure (List (Piece R)) := do
  return [(0, ← rewire [1, 0])]

def yParts (_ : List R) : Except Failure (List (Piece R)) := do
  return [(0, ← rewire [1, 0]), (0, phase (-Quantity.pi / num 2)), (1, phase (Quantity.pi / num 2))]

def sxParts (_ : List R) : Except Failure (List (Piece R)) :=
  .ok [(0, splitter .rx (-Quantity.pi / num 2)), (0, phase (Quantity.pi / num 4)),
    (1, phase (Quantity.pi / num 4))]

def rzParts (params : List R) : Except Failure (List (Piece R)) :=
  .ok [(0, phase (-first params / num 2)), (1, phase (first params / num 2))]

def rxParts (params : List R) : Except Failure (List (Piece R)) :=
  .ok [(0, splitter .rx (-first params))]

def ryParts (params : List R) : Except Failure (List (Piece R)) :=
  .ok [(0, splitter .ry (first params))]

def genericRows (theta phi lambda : R) : List (List (Amplitude R)) :=
  let c := Amplitude.ofReal (Quantity.cos (theta / num 2))
  let s := Amplitude.ofReal (Quantity.sin (theta / num 2))
  [[c, (Amplitude.cis lambda).neg * s],
    [Amplitude.cis phi * s, Amplitude.cis (phi + lambda) * c]]

def genericParts (params : List R) : Except Failure (List (Piece R)) := do
  let m ← Dense.ofRows (genericRows (params.getD 0 0) (params.getD 1 0) (params.getD 2 0))
  return [(0, .device (← Device.ofMatrix "U" Tolerance.standard (some m)))]

/-- The four-mode unitary at the heart of the heralded gate. -/
def coreRows : List (List (Amplitude R)) :=
  let r2 : R := Quantity.sqrt (num 2)
  let r6 : R := Quantity.sqrt (num 6)
  let a := Quantity.sqrt ((num 3 + r6) / num 18)
  let b := Quantity.sqrt ((num 3 - r6) / num 18)
  let third : R := 1 / num 3
  let twoThirds : R := num 2 / num 3
  [[-third, -r2 / num 3, twoThirds, r2 / num 3],
    [-r2 * a, a, b, -r2 * b],
    [r2 * b, -b, a, -r2 * a],
    [-r2 / num 3, -twoThirds, -r2 / num 3, -third]].map (·.map Amplitude.ofReal)

def gatherVector : List Int := [4, 1, 5, 0, 6, 3, 7, 2]

def heraldedCnot : Except Failure (Fragment (Device R) R) := do
  let core ← Device.ofMatrix "CS" Tolerance.standard (some (← Dense.ofRows coreRows))
  let gather ← Permutation.ofVector gatherVector
  let circuit ← assemble 8 "heralded cnot"
    [(4, balanced), (0, .perm gather), (0, .device core), (0, .perm gather.inverse), (4, balanced)]
  return { circuit := some circuit, qubitOffsets := [2, 4],
           ancillas := [⟨0, 0⟩, ⟨1, 1⟩, ⟨0, 0⟩, ⟨1, 1⟩], heralded := true, postSelect := false,
           success := num 2 / num 27 }

def postselectedCnot : Except Failure (Fragment (Device R) R) := do
  let third := splitter .h (Device.angleOfReflectivity (1 / num 3))
  let circuit ← assemble 6 "postselected cnot"
    [(3, balanced), (0, third), (2, third), (4, third), (4, phase Quantity.pi), (3, balanced)]
  return { circuit := some circuit, qubitOffsets := [1, 3], ancillas := [⟨0, 0⟩, ⟨0, 0⟩],
           heralded := false, postSelect := true, success := 1 / num 9 }

def cnot : Builder R := fun req => if req.heralded then heraldedCnot else postselectedCnot

/-- A controlled NOT between two Hadamards on its target. -/
def cz : Builder R := fun req => do
  let f ← cnot req
  let target := (f.qubitOffsets.getD 1 0).toNat
  match f.circuit with
  | none => return f
  | some inner =>
    let circuit ← assemble f.width "cz"
      [(target, balanced), (0, inner.toComponent), (target, balanced)]
    return { f with circuit := some circuit }

def swap : Builder R := fun _ => do
  let circuit ← assemble 4 "swap" [(0, ← rewire [2, 3, 0, 1])]
  return { circuit := some circuit, qubitOffsets := [0, 2], ancillas := [], heralded := false,
           postSelect := false, success := 1 }

def single (kind : String) (aliases : List String) (params : Int) (summary : String)
    (layout : List R → Except Failure (List (Piece R))) : GateEntry (Device R) R :=
  { kind, aliases, arity := 1, params, summary, build := some (onQubit kind layout) }

def double (kind : String) (aliases : List String) (summary : String) (build : Builder R) :
    GateEntry (Device R) R :=
  { kind, aliases, arity := 2, params := 0, summary, build := some build }

def entries : List (GateEntry (Device R) R) :=
  [single "id" [] 0 "identity" noParts,
    single "h" [] 0 "Hadamard" hadamardParts,
    single "x" [] 0 "Pauli X (rail swap)" xParts,
    single "y" [] 0 "Pauli Y" yParts,
    single "z" [] 0 "Pauli Z" (phaseOnOne fun _ => Quantity.pi),
    single "s" [] 0 "phase π/2" (phaseOnOne fun _ => Quantity.pi / num 2),
    single "sdg" [] 0 "phase -π/2" (phaseOnOne fun _ => -Quantity.pi / num 2),
    single "t" [] 0 "phase π/4" (phaseOnOne fun _ => Quantity.pi / num 4),
    single "tdg" [] 0 "phase -π/4" (phaseOnOne fun _ => -Quantity.pi / num 4),
    single "sx" [] 0 "square root of X" sxParts,
    single "p" ["phase"] 1 "phase λ on |1>" (phaseOnOne first),
    single "rz" [] 1 "Z rotation" rzParts,
    single "rx" [] 1 "X rotation" rxParts,
    single "ry" [] 1 "Y rotation" ryParts,
    single "u" ["u3"] 3 "generic U(θ,φ,λ)" genericParts,
    double "cx" ["cnot"] "controlled NOT" cnot,
    double "cz" [] "controlled Z" cz,
    double "swap" [] "exchange two qubits" swap]

/-- The registry of the standard gates. -/
def registry : Registry (Device R) R :=
  match Registry.ofEntries entries with
  | .ok r => r
  | .error _ => .empty

end DualRail.Standard
