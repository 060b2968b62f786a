import DualRail.Matrix.Flat
import DualRail.Workbench.Bench

/-!
Registers hold matrices under names. A call makes a matrix out of sizes, rows and the matrices that
are there, and keeps it under a name; `set` changes one entry of a matrix where it stands. A call
that fails leaves the registers as they were.
-/

namespace DualRail

abbrev Registers (K : Type) := List (String × Dense K)

inductive MatrixCall (K : Type) where
  | zeros (rows cols : Int) (target : String)
  | ofRows (rows : List (List K)) (target : String)
  | identity (n : Int) (target : String)
  | clone (source target : String)
  | set (target : String) (row col : Int) (v : K)
  | mul (left right target : String)
  | adjoint (source target : String)
  | embed (n offset : Int) (source target : String)

namespace MatrixCall

variable {K : Type}

def target : MatrixCall K → String
  | .zeros _ _ target => target
  | .ofRows _ target => target
  | .identity _ target => target
  | .clone _ target => target
  | .set target .. => target
  | .mul _ _ target => target
  | .adjoint _ target => target
  | .embed _ _ _ target => target

variable [Scalar K]

def result (regs : Registers K) : MatrixCall K → Except Failure (Dense K)
  | .zeros rows cols _ => Dense.zeros rows cols
  | .ofRows rows _ => Dense.Flat.ofRows rows
  | .identity n _ => Dense.Flat.identity n
  | .clone source _ => Workbench.required (regs.lookup source)
  | .set target row col v => do
    (← Workbench.required (regs.lookup target)).write row col v
  | .mul left right _ => do
    let a ← Dense.required .mul (regs.lookup left)
    let b ← Dense.required .mul (regs.lookup right)
    Dense.Flat.mul a b
  | .adjoint source _ => do
    Dense.Flat.adjoint (← Dense.required .adjoint (regs.lookup source))
  | .embed n offset source _ => do
    Dense.Flat.embed n offset (← Dense.required .embed (regs.lookup source))

def run (c : MatrixCall K) (regs : Registers K) : Except Failure (Registers K) := do
  return (c.target, ← c.result regs) :: regs

end MatrixCall

end DualRail
