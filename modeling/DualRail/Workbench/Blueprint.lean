import DualRail.Catalog.Standard
import DualRail.Matrix.Flat
import DualRail.Workbench.Bench

/-!
Blueprints: components, fragments and catalog entries as plain data. Building a blueprint checks
everything on the way; the first failure is the answer.
-/

namespace DualRail

inductive Blueprint (R : Type) where
  /-- No component at all. -/
  | absent
  | splitter (convention : Int) (theta : R) (phases : Option (Phases R))
  | balanced
  | phaseShifter (phi : R)
  | perm (vector : List Int)
  | unitary (name : String) (rows : Option (List (List (Amplitude R)))) (eps : Option R)
  | circuit (width : Int) (name : String) (entries : List (Int × Blueprint R))
  /-- The circuit of a standard gate. -/
  | gate (kind : String) (heralded : Bool) (params : List R)
  /-- What lies on the workbench under a name. -/
  | reference (name : String)

/-- Work on a workbench; a failure leaves the workbench as it was. -/
abbrev Bench (R : Type) := StateT (Workbench (Device R)) (Except Failure)

namespace Blueprint

variable {R : Type} [Quantity R]

def device (d : Device R) : Option (Part (Device R)) := some (.fixed (.device d))

def mountNetwork (n : Network (Device R)) : Bench R (Part (Device R)) := do
  let (bench, part) := (← get).mount n
  set bench
  return part

mutual

def build : Blueprint R → Bench R (Option (Part (Device R)))
  | .absent => return none
  | .splitter convention theta phases =>
    return device (.beamSplitter (.ofNumber convention) theta (phases.getD .none))
  | .balanced => return device .balanced
  | .phaseShifter phi => return device (.phaseShifter phi)
  | .perm vector => return some (.fixed (.perm (← Permutation.ofVector vector)))
  | .unitary name rows eps => do
    let m ← rows.mapM fun rows => (Dense.Flat.ofRows rows : Except Failure _)
    let eps ← Tolerance.choose eps.toList
    return device (← Device.ofMatrix name eps m)
  | .circuit width name entries => do
    let part ← mountNetwork (← Network.empty width name)
    match part with
    | .mounted number => buildEntries number entries
    | .fixed _ => pure ()
    return some part
  | .gate kind heralded params => do
    let f ← (Standard.registry : Registry (Device R) R).lookup kind ⟨heralded, params⟩
    match f.circuit with
    | none => return none
    | some n => return some (← mountNetwork n)
  | .reference name => return (← get).find? name

def buildEntries (number : Nat) : List (Int × Blueprint R) → Bench R Unit
  | [] => return ()
  | (offset, b) :: rest => do
    let part ← build b
    set (← (← get).add number offset part)
    buildEntries number rest

end

def component (b : Blueprint R) : Except Failure (Option (Component (Device R))) := do
  let (part, bench) ← b.build.run .empty
  return part.map bench.resolve

def network (b : Blueprint R) : Except Failure (Option (Network (Device R))) := do
  match ← b.component with
  | some (.net name width entries) => return some ⟨name, width, entries⟩
  | _ => return none

end Blueprint

structure FragmentBlueprint (R : Type) where
  circuit : Blueprint R
  qubitOffsets : List Int
  ancillas : List Ancilla
  heralded : Bool
  postSelect : Bool
  success : R

def FragmentBlueprint.build {R : Type} [Quantity R] (b : FragmentBlueprint R) :
    Except Failure (Fragment (Device R) R) := do
  return { circuit := ← b.circuit.network, qubitOffsets := b.qubitOffsets, ancillas := b.ancillas,
           heralded := b.heralded, postSelect := b.postSelect, success := b.success }

inductive Recipe (R : Type) where
  | fails (text : String)
  /-- As the standard gate of that kind. -/
  | like (kind : String)
  /-- One fragment, and possibly another one for heralded requests. -/
  | fragment (plain : FragmentBlueprint R) (heralded : Option (FragmentBlueprint R))

def Recipe.build {R : Type} [Quantity R] (recipe : Recipe R) (req : Request R) :
    Except Failure (Fragment (Device R) R) :=
  match recipe with
  | .fails text => .error ⟨[], .builder text⟩
  | .like kind => Standard.registry.lookup kind req
  | .fragment plain heralded =>
    match heralded with
    | some f => if req.heralded then f.build else plain.build
    | none => plain.build

structure EntryBlueprint (R : Type) where
  kind : String
  aliases : List String
  arity : Int
  params : Int
  summary : String
  recipe : Option (Recipe R)

def EntryBlueprint.entry {R : Type} [Quantity R] (b : EntryBlueprint R) :
    GateEntry (Device R) R :=
  { kind := b.kind, aliases := b.aliases, arity := b.arity, params := b.params,
    summary := b.summary, build := b.recipe.map Recipe.build }

end DualRail
