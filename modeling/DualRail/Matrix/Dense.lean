import DualRail.Failure
import DualRail.Quantity
import DualRail.Word

/-!
Dense matrices with a flat, row-major store, and the arithmetic that networks are evaluated with:
product, adjoint and embedding of a square block into an identity. Sizes and positions come as words
and are checked; a product of sizes is a word too, so it can wrap before the store is made.
-/

namespace DualRail

namespace Storage

def limit : Nat := Nat.pow 2 48

/-- The length of a new store of `count` cells of `size` bytes. A store whose length is a number is
reserved; one no longer than stores that are already there always has room. -/
def reserve (count : Int) (size : Nat) : Except Failure Nat :=
  if count < 0 || (limit : Int) < count * size then .error (.overrun .allocation)
  else .ok count.toNat

/-- The length of a new store of `rows` times `cols` cells. The product is a word and can wrap;
sizes beyond the greatest word have no store. -/
def reserveGrid (rows cols : Int) (size : Nat) : Except Failure Nat :=
  if Word.max < rows || Word.max < cols then .error (.overrun .allocation)
  else reserve (Word.wrap (rows * cols)) size

def cellAt {K : Type} (cells : Array K) (p : Int) : Except Failure (Fin cells.size) :=
  if h : 0 ≤ p ∧ p.toNat < cells.size then .ok ⟨p.toNat, h.2⟩
  else .error (.overrun (.index p cells.size))

end Storage

structure Dense (K : Type) where
  rows : Nat
  cols : Nat
  cells : Array K

namespace Dense

variable {K : Type} [Scalar K]

/-- The store holds one cell for every position. -/
def WellFormed (m : Dense K) : Prop :=
  0 < m.rows ∧ 0 < m.cols ∧ m.cells.size = m.rows * m.cols

def build (rows cols : Nat) (f : Nat → Nat → K) : Dense K :=
  ⟨rows, cols, Array.ofFn fun p : Fin (rows * cols) => f (p / cols) (p % cols)⟩

def get (m : Dense K) (i j : Nat) : K := m.cells.getD (i * m.cols + j) 0

def zeros (rows cols : Int) : Except Failure (Dense K) :=
  if rows ≤ 0 || cols ≤ 0 then refuse .badDimensions []
  else do
    let count ← Storage.reserveGrid rows cols 16
    return ⟨rows.toNat, cols.toNat, Array.replicate count 0⟩

/-- The first row whose length is not `want`, with its index counted from `index`. -/
def raggedRow? (want : Nat) : Nat → List (List K) → Option (Nat × Nat)
  | _, [] => none
  | index, row :: rest =>
    if row.length = want then raggedRow? want (index + 1) rest else some (index, row.length)

def ofRows (rows : List (List K)) : Except Failure (Dense K) :=
  match rows with
  | [] => refuse .badDimensions []
  | first :: _ =>
    if first.isEmpty then refuse .badDimensions []
    else
      match raggedRow? first.length 0 rows with
      | some (index, length) => refuse .dimensionMismatch [.row index length first.length]
      | none => .ok ⟨rows.length, first.length, rows.flatten.toArray⟩

/-- If the number of cells wraps, the diagonal leaves the store. -/
def identity (n : Int) : Except Failure (Dense K) :=
  if n ≤ 0 then refuse .badDimensions []
  else do
    let count ← Storage.reserve (Word.wrap (n * n)) 16
    let size := n.toNat
    if count = size * size then
      return build size size fun i j => if i = j then 1 else 0
    else
      let step := (count + size) / (size + 1)
      .error (.overrun (.index (Word.wrap (step * (size + 1))) count))

def isInside (m : Dense K) (row col : Int) : Bool :=
  0 ≤ row && row < m.rows && 0 ≤ col && col < m.cols

def cellIndex (m : Dense K) (writing : Bool) (row col : Int) : Except Failure (Fin m.cells.size) :=
  if m.isInside row col then Storage.cellAt m.cells (Word.wrap (row * m.cols + col))
  else refuse .indexOutOfBounds [.cell writing row col]

def read (m : Dense K) (row col : Int) : Except Failure K := do
  return m.cells[← m.cellIndex false row col]

def write (m : Dense K) (row col : Int) (v : K) : Except Failure (Dense K) := do
  let p ← m.cellIndex true row col
  return { m with cells := m.cells.set p v }

/-- The entry of a product: terms are added in order, and zero factors on the left are skipped. -/
def productEntry (a b : Dense K) (i j : Nat) : K :=
  Nat.fold a.cols (fun k _ sum =>
    let x := a.get i k
    if Scalar.isZero x then sum else sum + x * b.get k j) 0

def mul (a b : Dense K) : Except Failure (Dense K) :=
  if a.cols ≠ b.rows then refuse .dimensionMismatch [.step .mul]
  else noting (.step .mul) do
    let _ ← Storage.reserve (Word.wrap (a.rows * b.cols)) 16
    return build a.rows b.cols (productEntry a b)

def adjoint (m : Dense K) : Dense K := build m.cols m.rows fun i j => Scalar.conj (m.get j i)

/-- The entry of a block placed on the diagonal of an identity. -/
def embedEntry (offset : Nat) (block : Dense K) (i j : Nat) : K :=
  if offset ≤ i && i < offset + block.rows && offset ≤ j && j < offset + block.rows then
    block.get (i - offset) (j - offset)
  else if i = j then 1
  else 0

/-- The identity of size `n` with a square block on its diagonal from `offset` on. -/
def embed (n offset : Int) (block : Dense K) : Except Failure (Dense K) :=
  if block.rows ≠ block.cols then refuse .notSquare [.step .embed]
  else if offset < 0 || n < Word.wrap (offset + block.rows) then
    refuse .dimensionMismatch [.step .embed]
  else do
    let id ← noting (.step .embed) (identity (K := K) n)
    if offset + block.rows ≤ n then
      return build id.rows id.cols (embedEntry offset.toNat block)
    else
      let low := Word.wrap (offset * n + offset)
      .error (.overrun (.slice low (Word.wrap (low + block.rows)) id.cells.size))

def text {R : Type} [Quantity R] (m : Dense (Amplitude R)) : String :=
  String.join <| (List.range m.rows).map fun i =>
    let entries := (List.range m.cols).map fun j => (m.get i j).text 4
    "[" ++ ", ".intercalate entries ++ "]\n"

def required (step : MatrixStep) (m : Option (Dense K)) : Except Failure (Dense K) :=
  match m with
  | some m => .ok m
  | none => refuse .noMatrix [.step step]

end Dense

end DualRail
