import DualRail.Network.Basic

/-!
A workbench holds networks that can be mounted in several places at once. A mounted network is the
network itself and not a copy: a component added to it later, or modes it gains, show wherever it is
mounted. `Workbench.resolve` gives the component a part stands for at a given moment.
-/

namespace DualRail

/-- A finished component, or a network of the workbench by number. -/
inductive Part (α : Type) where
  | fixed (c : Component α)
  | mounted (number : Nat)

structure Sheet (α : Type) where
  name : String
  width : Nat
  entries : List (Entry (Part α))

structure Workbench (α : Type) where
  sheets : Array (Sheet α)
  labels : List (String × Part α)

namespace Workbench

variable {α : Type}

def empty : Workbench α := ⟨#[], []⟩

def sheet (b : Workbench α) (number : Nat) : Sheet α := b.sheets.getD number ⟨"", 0, []⟩

def resolveTo (b : Workbench α) : Nat → Part α → Component α
  | _, .fixed c => c
  | 0, .mounted number => .net (b.sheet number).name (b.sheet number).width []
  | depth + 1, .mounted number =>
    let s := b.sheet number
    .net s.name s.width (s.entries.map fun e => ⟨e.offset, b.resolveTo depth e.item⟩)

/-- No chain of mountings is longer than the number of sheets. -/
def resolve (b : Workbench α) (p : Part α) : Component α := b.resolveTo b.sheets.size p

def label (b : Workbench α) (name : String) (p : Part α) : Workbench α :=
  { b with labels := (name, p) :: b.labels }

def find? (b : Workbench α) (name : String) : Option (Part α) := b.labels.lookup name

def find (b : Workbench α) (name : String) : Option (Component α) := (b.find? name).map b.resolve

def permutation? (b : Workbench α) (name : String) : Option Permutation :=
  match b.find? name with
  | some (.fixed (.perm p)) => some p
  | _ => none

def required {β : Type} (x : Option β) : Except Failure β :=
  match x with
  | some b => .ok b
  | none => .error (.overrun .absent)

def permutation (b : Workbench α) (name : String) : Except Failure Permutation :=
  required (b.permutation? name)

def component (b : Workbench α) (name : String) : Except Failure (Component α) :=
  required (b.find name)

def sheetNumber (b : Workbench α) (name : String) : Except Failure Nat :=
  match b.find? name with
  | some (.mounted number) => .ok number
  | _ => .error (.overrun .absent)

def network (b : Workbench α) (name : String) : Except Failure (Network α) :=
  match b.find name with
  | some (.net name width entries) => .ok ⟨name, width, entries⟩
  | _ => .error (.overrun .absent)

def compose (b : Workbench α) (first second : String) : Except Failure Permutation := do
  let p ← b.permutation first
  match b.permutation? second with
  | none => refuse .noComponent []
  | some q => p.andThen q

/-- A new sheet for a network, whose own components stay as they are. -/
def mount (b : Workbench α) (n : Network α) : Workbench α × Part α :=
  let entries := n.entries.map fun e => ⟨e.offset, .fixed e.item⟩
  ({ b with sheets := b.sheets.push ⟨n.name, n.width, entries⟩ }, .mounted b.sheets.size)

variable [Element α]

def add (b : Workbench α) (number : Nat) (offset : Int) (p : Option (Part α)) :
    Except Failure (Workbench α) := do
  let s := b.sheet number
  let bare : Network α := ⟨s.name, s.width, []⟩
  let _ ← bare.add offset (p.map b.resolve)
  match p with
  | none => return b
  | some p =>
    let s := { s with entries := s.entries ++ [⟨offset.toNat, p⟩] }
    return { b with sheets := b.sheets.setIfInBounds number s }

def grow (b : Workbench α) (number : Nat) (m : Int) : Except Failure (Workbench α) := do
  let s := b.sheet number
  let n ← (⟨s.name, s.width, []⟩ : Network α).grow m
  return { b with sheets := b.sheets.setIfInBounds number { s with width := n.width } }

end Workbench

end DualRail
