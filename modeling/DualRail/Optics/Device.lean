import DualRail.Matrix.Unitarity
import DualRail.Quantity

/-!
The optical devices a network is built from, besides rewirings: beam splitters in one of three
conventions with a phase on each port, phase shifters on a single mode, and explicit unitaries.
-/

namespace DualRail

/-- How a beam splitter of angle `θ` mixes its two modes; any other number names no convention. -/
inductive Convention where
  | rx
  | ry
  | h
  | unknown (number : Int)
  deriving DecidableEq, Repr

namespace Convention

def ofNumber : Int → Convention
  | 0 => .rx
  | 1 => .ry
  | 2 => .h
  | n => .unknown n

def text : Convention → String
  | .rx => "Rx"
  | .ry => "Ry"
  | .h => "H"
  | .unknown n => s!"Convention({n})"

end Convention

structure Phases (R : Type) where
  topLeft : R
  topRight : R
  bottomLeft : R
  bottomRight : R

def Phases.none {R : Type} [Zero R] : Phases R := ⟨0, 0, 0, 0⟩

inductive Device (R : Type) where
  | beamSplitter (convention : Convention) (theta : R) (phases : Phases R)
  | phaseShifter (phi : R)
  | unitary (name : String) (matrix : Dense (Amplitude R))

namespace Device

variable {R : Type} [Quantity R]

def balanced : Device R :=
  .beamSplitter .h (Quantity.pi / Quantity.ofNat 2) .none

def splitter (convention : Convention) (theta : R) : Device R :=
  .beamSplitter convention theta .none

/-- The angle of a beam splitter that reflects the fraction `r` of the light. -/
def angleOfReflectivity (r : R) : R :=
  Quantity.ofNat 2 * Quantity.acos (Quantity.sqrt r)

/-- An explicit unitary; the matrix must be unitary within the tolerance. -/
def ofMatrix (name : String) (eps : R) (m : Option (Dense (Amplitude R))) :
    Except Failure (Device R) :=
  match m with
  | none => refuse .noComponent []
  | some m => do
    if ← noting (.unitary name) (m.isUnitary eps) then return .unitary name m
    else refuse .notUnitary [.unitary name]

def name : Device R → String
  | .beamSplitter convention _ _ => "BS." ++ convention.text
  | .phaseShifter _ => "PS"
  | .unitary name _ => name

def width : Device R → Nat
  | .beamSplitter .. => 2
  | .phaseShifter _ => 1
  | .unitary _ m => m.rows

def phaseText (tag : String) (x : R) : String :=
  if x == 0 then "" else ", " ++ tag ++ "=" ++ Quantity.significant 4 x

def text : Device R → String
  | .beamSplitter convention theta p =>
    "BS." ++ convention.text ++ "(θ=" ++ Quantity.significant 4 theta ++
      phaseText "φtl" p.topLeft ++ phaseText "φtr" p.topRight ++
      phaseText "φbl" p.bottomLeft ++ phaseText "φbr" p.bottomRight ++ ")"
  | .phaseShifter phi => "PS(φ=" ++ Quantity.significant 4 phi ++ ")"
  | .unitary name m => name ++ s!"[{m.rows}×{m.rows}]"

def splitterRows (convention : Convention) (theta : R) (p : Phases R) :
    Except Failure (List (List (Amplitude R))) :=
  let half := theta / Quantity.ofNat 2
  let c := Amplitude.ofReal (Quantity.cos half)
  let s := Amplitude.ofReal (Quantity.sin half)
  let tl := Amplitude.cis (p.topLeft + p.topRight)
  let tr := Amplitude.cis (p.topRight + p.bottomLeft)
  let bl := Amplitude.cis (p.topLeft + p.bottomRight)
  let br := Amplitude.cis (p.bottomLeft + p.bottomRight)
  match convention with
  | .rx => .ok [[tl * c, Amplitude.i * tr * s], [Amplitude.i * bl * s, br * c]]
  | .ry => .ok [[tl * c, tr.neg * s], [bl * s, br * c]]
  | .h => .ok [[tl * c, tr * s], [bl * s, br.neg * c]]
  | .unknown _ => refuse .notUnitary [.splitter convention.text]

def matrix : Device R → Except Failure (Dense (Amplitude R))
  | .beamSplitter convention theta p => do Dense.ofRows (← splitterRows convention theta p)
  | .phaseShifter phi => Dense.ofRows [[Amplitude.cis phi]]
  | .unitary _ m => .ok m

end Device

end DualRail
