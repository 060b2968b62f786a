import DualRail.Matrix.Dense

/-!
Matrix arithmetic cell by cell. The operations of `Dense` say what the entries of a result are; the
loops here fill its store, one cell after the other. Positions are words and every access is
checked, so a store that is too short for its sizes is found out as soon as a loop leaves it.
-/

namespace DualRail

variable {K : Type}

def loopFrom {σ : Type} (step : Nat → σ → Except Failure σ) :
    (first count : Nat) → σ → Except Failure σ
  | _, 0, s => .ok s
  | first, count + 1, s => do loopFrom step (first + 1) count (← step first s)

def loop {σ : Type} (count : Nat) (step : Nat → σ → Except Failure σ) (s : σ) :
    Except Failure σ :=
  loopFrom step 0 count s

namespace Storage

def fetch (cells : Array K) (p : Int) : Except Failure K := do
  return cells[← cellAt cells p]

def put (cells : Array K) (p : Int) (v : K) : Except Failure (Array K) := do
  let q ← cellAt cells p
  return cells.set q v

def checkSlice (cells : Array K) (low high : Int) : Except Failure Unit :=
  if 0 ≤ low && low ≤ high && high ≤ cells.size then .ok ()
  else .error (.overrun (.slice low high cells.size))

/-- Copies one slice over another, as far as both reach. -/
def copySlice (target : Array K) (low high : Int) (source : Array K) (start stop : Int) :
    Except Failure (Array K) := do
  checkSlice target low high
  checkSlice source start stop
  loop (min (high - low) (stop - start)).toNat (fun j target => do
    put target (low + j) (← fetch source (start + j))) target

end Storage

namespace Dense.Flat

open Storage

variable [Scalar K]

def position (cols i j : Nat) : Int := Word.wrap (i * cols + j)

def fillRows (want : Nat) : Nat → List (List K) → Array K → Except Failure (Array K)
  | _, [], cells => .ok cells
  | index, row :: rest, cells =>
    if row.length ≠ want then refuse .dimensionMismatch [.row index row.length want]
    else do
      let cells ← copySlice cells (position want index 0) (position want (index + 1) 0)
        row.toArray 0 row.length
      fillRows want (index + 1) rest cells

/-- The matrix with the given rows, which the first one measures. -/
def ofRows (rows : List (List K)) : Except Failure (Dense K) :=
  match rows with
  | [] => refuse .badDimensions []
  | first :: _ =>
    if first.isEmpty then refuse .badDimensions []
    else do
      let blank : Dense K ← zeros rows.length first.length
      let cells ← fillRows first.length 0 rows blank.cells
      return { blank with cells }

def putOne (n i : Nat) (cells : Array K) : Except Failure (Array K) :=
  put cells (position n i i) 1

def identity (n : Int) : Except Failure (Dense K) := do
  let blank : Dense K ← zeros n n
  let cells ← loop n.toNat (putOne n.toNat) blank.cells
  return { blank with cells }

def addEntry (b : Dense K) (i k : Nat) (x : K) (j : Nat) (cells : Array K) :
    Except Failure (Array K) := do
  let sum ← fetch cells (position b.cols i j)
  let y ← fetch b.cells (position b.cols k j)
  put cells (position b.cols i j) (sum + x * y)

/-- Adds the terms with the factor `(i, k)` of `a` to row `i` of a product, unless it is zero. -/
def addTerms (a b : Dense K) (i k : Nat) (cells : Array K) : Except Failure (Array K) := do
  let x ← fetch a.cells (position a.cols i k)
  if Scalar.isZero x then return cells else loop b.cols (addEntry b i k x) cells

def mulRow (a b : Dense K) (i : Nat) (cells : Array K) : Except Failure (Array K) :=
  loop a.cols (addTerms a b i) cells

def mul (a b : Dense K) : Except Failure (Dense K) :=
  if a.cols ≠ b.rows then refuse .dimensionMismatch [.step .mul]
  else noting (.step .mul) do
    let blank : Dense K ← zeros a.rows b.cols
    let cells ← loop a.rows (mulRow a b) blank.cells
    return { blank with cells }

def putConj (m : Dense K) (i j : Nat) (cells : Array K) : Except Failure (Array K) := do
  let x ← fetch m.cells (position m.cols i j)
  put cells (position m.rows j i) (Scalar.conj x)

def adjoint (m : Dense K) : Except Failure (Dense K) :=
  noting (.step .adjoint) do
    let blank : Dense K ← zeros m.cols m.rows
    let cells ← loop m.rows (fun i => loop m.cols (putConj m i)) blank.cells
    return { blank with cells }

def embedRow (n offset : Int) (block : Dense K) (i : Nat) (cells : Array K) :
    Except Failure (Array K) :=
  let low := Word.wrap ((offset + i) * n + offset)
  copySlice cells low (Word.wrap (low + block.rows)) block.cells (position block.rows i 0)
    (position block.rows (i + 1) 0)

/-- The identity of size `n` with a square block on its diagonal from `offset` on. -/
def embed (n offset : Int) (block : Dense K) : Except Failure (Dense K) :=
  if block.rows ≠ block.cols then refuse .notSquare [.step .embed]
  else if offset < 0 || n < Word.wrap (offset + block.rows) then
    refuse .dimensionMismatch [.step .embed]
  else do
    let one ← noting (.step .embed) (identity (K := K) n)
    let cells ← loop block.rows (embedRow n offset block) one.cells
    return { one with cells }

end Dense.Flat

end DualRail
