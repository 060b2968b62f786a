import DualRail.Optics.Device
import DualRail.Permutation.Basic

/-!
Networks of components on modes. A network is a width and a list of entries in the order the light
passes them; an entry puts a component on consecutive modes from its offset on. A component is a
device, a rewiring or a network again. Devices enter only through what `Element` says of them and
through their matrices, so networks can be read over any kind of device.
-/

namespace DualRail

/-- What a network needs to know of a device. -/
class Element (α : Type) where
  name : α → String
  width : α → Nat
  text : α → String

/-- Devices with a matrix over `K`. -/
class Transfer (α K : Type) where
  matrix : α → Except Failure (Dense K)

instance {R : Type} [Quantity R] : Element (Device R) where
  name := Device.name
  width := Device.width
  text := Device.text

instance {R : Type} [Quantity R] : Transfer (Device R) (Amplitude R) where
  matrix := Device.matrix

structure Entry (β : Type) where
  offset : Nat
  item : β

inductive Component (α : Type) where
  | device (d : α)
  | perm (p : Permutation)
  | net (name : String) (width : Nat) (entries : List (Entry (Component α)))

/-- What holds of devices and permutations, and of a network if it holds of the components of its
entries, holds of every component. -/
theorem Component.induction {α : Type} {motive : Component α → Prop}
    (device : ∀ d, motive (.device d)) (perm : ∀ p, motive (.perm p))
    (net : ∀ name width entries, (∀ e ∈ entries, motive e.item) → motive (.net name width entries))
    (c : Component α) : motive c :=
  @Component.rec α motive (fun entries => ∀ e ∈ entries, motive e.item) (fun e => motive e.item)
    device perm net nofun (fun _ _ he hrest => List.forall_mem_cons.mpr ⟨he, hrest⟩)
    (fun _ _ h => h) c

structure Network (α : Type) where
  name : String
  width : Nat
  entries : List (Entry (Component α))

namespace Component

variable {α : Type} [Element α]

def name : Component α → String
  | .device d => Element.name d
  | .perm _ => Permutation.name
  | .net name _ _ => name

def width : Component α → Nat
  | .device d => Element.width d
  | .perm p => p.width
  | .net _ width _ => width

end Component

/-- The modes an entry occupies, as words. -/
def Entry.modes {α : Type} [Element α] (e : Entry (Component α)) : List Int :=
  (List.range e.item.width).map fun i => Word.wrap ((e.offset + i : Nat) : Int)

def Entry.storedModes {α : Type} [Element α] (e : Entry (Component α)) :
    Except Failure (List Int) := do
  let _ ← Storage.reserve e.item.width 8
  return e.modes

namespace Network

variable {α : Type}

def toComponent (n : Network α) : Component α := .net n.name n.width n.entries

def length (n : Network α) : Nat := n.entries.length

def empty (m : Int) (name : String) : Except Failure (Network α) :=
  if m ≤ 0 then refuse .invalidWidth [.newNetwork name m] else .ok ⟨name, m.toNat, []⟩

variable [Element α]

def append (n : Network α) (offset : Nat) (c : Component α) : Network α :=
  { n with entries := n.entries ++ [⟨offset, c⟩] }

def misfit (n : Network α) (offset : Int) (c : Component α) : Failure :=
  .of .componentRange [.placing c.name c.width offset n.width n.name]

/-- Adds a component at an offset given as a word. The end of the component is a word as well, so
an offset close to the largest word is not seen to lie outside. -/
def add (n : Network α) (offset : Int) (c : Option (Component α)) : Except Failure (Network α) :=
  match c with
  | none => refuse .noComponent []
  | some c =>
    if offset < 0 || (n.width : Int) < Word.wrap (offset + c.width) then .error (n.misfit offset c)
    else .ok (n.append offset.toNat c)

def addAll (n : Network α) (parts : List (Nat × Component α)) : Except Failure (Network α) :=
  parts.foldlM (fun n part => n.add part.1 (some part.2)) n

/-- Networks get wider, never narrower. -/
def grow (n : Network α) (m : Int) : Except Failure (Network α) :=
  if m < n.width then refuse .invalidWidth [.shrinking n.name n.width m]
  else .ok { n with width := m.toNat }

end Network

section Matrix

variable {α K : Type} [Element α] [Scalar K] [Transfer α K]

mutual

def Component.matrix : Component α → Except Failure (Dense K)
  | .device d => Transfer.matrix d
  | .perm p => p.storedMatrix
  | .net name width entries => do
    entriesMatrix name width 0 entries (← Dense.identity width)

def entriesMatrix (name : String) (width : Nat) :
    Nat → List (Entry (Component α)) → Dense K → Except Failure (Dense K)
  | _, [], u => .ok u
  | index, ⟨offset, c⟩ :: rest, u => do
    let note := Note.entry name index c.name
    let block ← noting note c.matrix
    let lifted ← noting note (Dense.embed width offset block)
    entriesMatrix name width (index + 1) rest (← lifted.mul u)

end

def Network.matrix (n : Network α) : Except Failure (Dense K) := n.toComponent.matrix

end Matrix

/-- A refusal becomes an absent answer; an overrun stays. -/
def settled {β : Type} (x : Except Failure β) : Except Failure (Option β) :=
  match x with
  | .ok b => .ok (some b)
  | .error ⟨notes, .overrun o⟩ => .error ⟨notes, .overrun o⟩
  | .error _ => .ok none

section Rewiring

variable {α : Type}

mutual

/-- The permutation a component amounts to, if it is made of rewirings only. -/
def Component.asPermutation : Component α → Except Failure (Option Permutation)
  | .device _ => .ok none
  | .perm p => .ok (some p)
  | .net _ width entries => do
    match ← settled (Permutation.identity width) with
    | none => return none
    | some p => entriesPermutation width entries p

def entriesPermutation (width : Nat) :
    List (Entry (Component α)) → Permutation → Except Failure (Option Permutation)
  | [], acc => .ok (some acc)
  | ⟨offset, c⟩ :: rest, acc => do
    match ← c.asPermutation with
    | none => return none
    | some p =>
      match ← settled (p.lift width offset) with
      | none => return none
      | some lifted =>
        match ← settled (acc.andThen lifted) with
        | none => return none
        | some next => entriesPermutation width rest next

end

def Network.asPermutation (n : Network α) : Except Failure (Option Permutation) :=
  n.toComponent.asPermutation

end Rewiring

section Text

variable {α : Type} [Element α]

def indent (depth : Nat) : String := String.ofList (List.replicate (2 * depth) ' ')

mutual

/-- A component on lines of its own; a network lists its entries two levels deeper. -/
def Component.lines (depth : Nat) : Component α → String
  | .device d => Element.text d
  | .perm p => p.text
  | .net name width entries =>
    indent depth ++ name ++ s!"[{width} modes]\n" ++ entriesLines depth entries

def entriesLines (depth : Nat) : List (Entry (Component α)) → String
  | [] => ""
  | ⟨offset, .net name width entries⟩ :: rest =>
    indent depth ++ s!"  @{offset}\n" ++
      Component.lines (depth + 2) (.net name width entries) ++ entriesLines depth rest
  | ⟨offset, c⟩ :: rest =>
    indent depth ++ s!"  @{offset} " ++ Component.lines depth c ++ "\n" ++ entriesLines depth rest

end

def Component.text (c : Component α) : String := c.lines 0

def Network.text (n : Network α) : String := n.toComponent.text

def Component.summary : Component α → String
  | .net name _ entries => name ++ s!" ({entries.length} components)"
  | c => c.text

end Text

end DualRail
