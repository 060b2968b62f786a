import DualRail.Network.Basic

/-!
Fragments: the photonic form of one gate. A fragment is a small network, the offsets of its operand
pairs, the photons and heralds of the modes between them, and the probability that it succeeds.
-/

namespace DualRail

/-- The photons put into an ancilla mode and the count that heralds success. -/
structure Ancilla where
  photons : Int
  herald : Int
  deriving DecidableEq, Repr

structure Fragment (α R : Type) where
  circuit : Option (Network α)
  qubitOffsets : List Int
  ancillas : List Ancilla
  heralded : Bool
  postSelect : Bool
  success : R

namespace Fragment

variable {α R : Type}

def width (f : Fragment α R) : Nat :=
  match f.circuit with
  | some n => n.width
  | none => 0

def name (f : Fragment α R) : String :=
  match f.circuit with
  | some n => n.name
  | none => ""

def ancillaPairs (f : Fragment α R) : Nat := f.ancillas.length / 2

def isOperand (f : Fragment α R) (pos : Nat) : Bool :=
  f.qubitOffsets.any fun off =>
    0 ≤ off && off + 1 < f.width && ((pos : Int) == off || (pos : Int) == off + 1)

def freePositions (f : Fragment α R) : List Nat :=
  (List.range f.width).filter fun pos => !f.isOperand pos

/-- The positions of the ancilla modes. The second rail of an offset is a word, so the largest word
is taken for an offset inside and runs out of the fragment. -/
def ancillaPositions (f : Fragment α R) : Except Failure (List Nat) := do
  let _ ← Storage.reserve f.width 1
  match f.qubitOffsets.find? fun off =>
      0 ≤ off && Word.wrap (off + 1) < f.width && (f.width : Int) ≤ off + 1 with
  | some off => .error (.overrun (.index off f.width))
  | none => return f.freePositions

def overlap (a b : Int) : Bool := a == b || a == b + 1 || b == a + 1

/-- Checks the operand offsets from number `i` on, `earlier` holding those before. -/
def checkOffsets (name : String) (width : Nat) :
    Nat → List Int → List Int → Except Failure Unit
  | _, _, [] => .ok ()
  | i, earlier, off :: rest =>
    if off < 0 || (width : Int) < Word.wrap (off + 2) then
      refuse .invalidFragment [.operandOffset name i off]
    else if (width : Int) < off + 2 then .error (.overrun (.index off width))
    else if earlier.any (overlap off) then
      refuse .invalidFragment [.operandOffset name i off]
    else checkOffsets name width (i + 1) (off :: earlier) rest

def checkAncillas (name : String) : Nat → List Ancilla → Except Failure Unit
  | _, [] => .ok ()
  | i, a :: rest =>
    if a.photons < 0 || a.herald < 0 then refuse .invalidFragment [.ancillaCount name i]
    else checkAncillas name (i + 1) rest

variable [Quantity R]

/-- Checks a fragment against the number of operands of its gate. -/
def validate (f : Fragment α R) (arity : Int) : Except Failure Unit :=
  match f.circuit with
  | none => refuse .invalidFragment [.noCircuit]
  | some n =>
    if (f.qubitOffsets.length : Int) ≠ arity then
      refuse .invalidFragment [.operandsDeclared n.name f.qubitOffsets.length arity]
    else if f.ancillas.length % 2 ≠ 0 then
      refuse .invalidFragment [.oddAncillas n.name f.ancillas.length]
    else
      let want := 2 * f.qubitOffsets.length + f.ancillas.length
      if n.width ≠ want then refuse .invalidFragment [.span n.name n.width want]
      else do
        checkOffsets n.name n.width 0 [] f.qubitOffsets
        checkAncillas n.name 0 f.ancillas
        if Quantity.le f.success 0 || Quantity.lt 1 f.success then
          refuse .invalidFragment [.fragmentSuccess n.name (Quantity.shortest f.success)]
        else return ()

/-- The permutation a fragment without ancillas amounts to, if it only rewires. -/
def asPermutation (f : Fragment α R) : Except Failure (Option Permutation) :=
  match f.circuit with
  | none => .ok none
  | some n => if f.ancillas.isEmpty then n.asPermutation else .ok none

end Fragment

end DualRail
