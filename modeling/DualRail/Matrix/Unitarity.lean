import DualRail.Matrix.Dense

/-!
Closeness of matrices within a tolerance, and unitarity as closeness of `m * adjoint m` to the
identity.
-/

namespace DualRail

namespace Tolerance

def standard {R : Type} [Quantity R] : R := 1 / Quantity.ofNat 1000000000

def check {R : Type} [Quantity R] (eps : R) : Except Failure R :=
  if !Quantity.isFinite eps || Quantity.lt eps 0 then .error ⟨[], .setting .tolerance⟩
  else .ok eps

/-- Every given tolerance is checked; the last one counts. -/
def choose {R : Type} [Quantity R] (given : List R) : Except Failure R := do
  let checked ← given.mapM check
  return checked.getLast?.getD standard

end Tolerance

namespace Dense

variable {R : Type} [Quantity R]

def closeCells (eps : R) (a b : Dense (Amplitude R)) : Bool :=
  !(a.cells.zip b.cells).any fun (x, y) => Quantity.lt eps (x.sub y).abs

def allClose (eps : R) (a b : Dense (Amplitude R)) : Except Failure Bool :=
  if a.rows ≠ b.rows || a.cols ≠ b.cols then refuse .dimensionMismatch [.step .allClose]
  else .ok (closeCells eps a b)

def isUnitary (eps : R) (m : Dense (Amplitude R)) : Except Failure Bool :=
  if m.rows ≠ m.cols then refuse .notSquare [.step .isUnitary]
  else do
    let product ← noting (.step .isUnitary) (m.mul m.adjoint)
    let id ← noting (.step .isUnitary) (identity m.rows)
    allClose eps product id

end Dense

end DualRail
