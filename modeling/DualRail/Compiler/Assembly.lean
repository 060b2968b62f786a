import DualRail.Catalog.Registry
import DualRail.Compiler.Route
import DualRail.Program.Basic

/-!
A processor under construction: the modes handed out, the network so far and the ledger of photons,
heralds, conditions and success. Every gate is resolved to a fragment and placed; a step that
fails keeps what it had done before.
-/

namespace DualRail

structure Ledger (R : Type) where
  sources : List Source
  heralds : List Herald
  conditions : List Condition
  success : R

namespace Ledger

variable {α R : Type} [Quantity R]

def ofQubits (pairs : List ModePair) : Ledger R :=
  { sources := pairs.map fun p => ⟨p.zero, 1⟩, heralds := [], conditions := [], success := 1 }

def ancillaSources (ancillas : List (Ancilla × Int)) : List Source :=
  (ancillas.filter fun a => 0 < a.1.photons).map fun a => ⟨a.2, a.1.photons⟩

def ancillaHeralds (ancillas : List (Ancilla × Int)) : List Herald :=
  ancillas.map fun a => ⟨a.2, a.1.herald⟩

def onePhoton (p : ModePair) : Condition := ⟨[p.zero, p.one], 1⟩

def addCondition (cs : List Condition) (c : Condition) : List Condition :=
  if cs.contains c then cs else cs ++ [c]

def record (l : Ledger R) (f : Fragment α R) (operands : List ModePair) (modes : List Int) :
    Ledger R :=
  let ancillas := f.ancillas.zip modes
  { sources := l.sources ++ ancillaSources ancillas
    heralds := if f.heralded then l.heralds ++ ancillaHeralds ancillas else l.heralds
    conditions :=
      if f.postSelect then (operands.map onePhoton).foldl addCondition l.conditions
      else l.conditions
    success := l.success * f.success }

def sorted (l : Ledger R) : Ledger R :=
  { l with
    sources := l.sources.mergeSort fun a b => a.mode ≤ b.mode
    heralds := l.heralds.mergeSort fun a b => a.mode ≤ b.mode
    conditions := l.conditions.mergeSort fun a b => a.modes.headD 0 ≤ b.modes.headD 0 }

end Ledger

structure ResolvedGate (α R : Type) where
  kind : String
  fragment : Fragment α R
  operands : List ModePair
  ancillas : List ModePair

def ResolvedGate.isDirect {α R : Type} (t : ResolvedGate α R) : Bool :=
  t.operands.length == 1 && t.ancillas.isEmpty

structure Assembly (α R : Type) where
  supply : ModeSupply
  network : Network α
  ledger : Ledger R
  keepIdentity : Bool

namespace Assembly

variable {α R : Type} [Element α] [Quantity R]

/-- Steps of the construction; a failing step keeps the state it failed in. -/
abbrev Step (α R : Type) := EStateM Failure (Assembly α R)

def start (n : Int) (name : String) (keepIdentity : Bool) : Except Failure (Assembly α R) := do
  let supply ← ModeSupply.ofQubits n
  let network ← Network.empty supply.width name
  return { supply, network, ledger := .ofQubits supply.qubitModes, keepIdentity }

def ofExcept {β : Type} (x : Except Failure β) : Step α R β :=
  match x with
  | .ok b => pure b
  | .error f => throw f

def allocate (pairs : Int) : Step α R (List ModePair) := do
  let a ← get
  let (given, supply) ← ofExcept (a.supply.allocate pairs)
  set { a with supply }
  return given

/-- Widens the network to the modes handed out. -/
def sync : Step α R Unit := do
  let a ← get
  let network ← ofExcept (noting (.because .modeCountMismatch) (a.network.grow a.supply.width))
  set { a with network }

def growNetwork (m : Int) : Step α R Unit := do
  let a ← get
  let network ← ofExcept (a.network.grow m)
  set { a with network }

/-- Changes the network, provided it is as wide as the modes handed out. -/
def change (f : Network α → Except Failure (Network α)) : Step α R Unit := do
  let a ← get
  if a.network.width ≠ a.supply.width then
    throw (.of .modeCountMismatch [.widths a.network.width a.supply.width])
  else
    let network ← ofExcept (noting (.because .modeCountMismatch) (f a.network))
    set { a with network }

def add (offset : Int) (c : Option (Component α)) : Step α R Unit := change (·.add offset c)

/-- Identities are left out unless they are to be kept. -/
def addPermutation (p : Permutation) : Step α R Unit := do
  if p.isIdentity && !(← get).keepIdentity then return () else add 0 (some (.perm p))

def addFolded (p : Permutation) : Step α R Unit :=
  match p.trim with
  | none => addPermutation p
  | some (offset, core) => add offset (some (.perm core))

def record (f : Fragment α R) (operands : List ModePair) (modes : List Int) : Step α R Unit :=
  modify fun a => { a with ledger := a.ledger.record f operands modes }

/-- The fragment of an entry; a wrong number of parameters counts as a wrong operand as well. -/
def fragmentOf (registry : Registry α R) (kind : String) (req : Request R) :
    Except Failure (Fragment α R) :=
  match registry.lookup kind req with
  | .ok f => .ok f
  | .error f =>
    if f.wraps .parameterCount then .error (f.noted (.because .invalidOperand)) else .error f

/-- Resolves a gate; modes are handed out only if that succeeds. -/
def resolve (registry : Registry α R) (heralded : Bool) (g : Gate R) :
    Step α R (ResolvedGate α R) := do
  match registry.find? g.kind with
  | none => throw (.of .unsupportedGate [.gateName g.kind])
  | some entry =>
    ofExcept (checkOperands g.qubits entry.arity (← get).supply.qubits)
    let fragment ← ofExcept (fragmentOf registry entry.kind ⟨heralded, g.params⟩)
    let operands := g.qubits.map fun q => ModeSupply.qubit q.toNat
    let ancillas ← allocate fragment.ancillaPairs
    return { kind := entry.kind, fragment, operands, ancillas }

def circuitOf (f : Fragment α R) : Step α R (Network α) :=
  match f.circuit with
  | some n => return n
  | none => throw (.overrun .absent)

/-- Puts the fragment of a gate on its modes. -/
def placeFragment (t : ResolvedGate α R) : Step α R Unit := do
  sync
  let circuit ← circuitOf t.fragment
  if t.isDirect then
    record t.fragment t.operands []
    add (t.operands.headD ⟨0, 1⟩).zero (some circuit.toComponent)
  else
    let block ← ofExcept (fragmentBlock t.fragment t.operands t.ancillas)
    if t.fragment.width ≠ block.length then
      throw (.of .modeCountMismatch [.fragmentWidth t.fragment.width block.length])
    else
      let width := (← get).supply.width
      let route ← ofExcept (storedRoute width block)
      record t.fragment t.operands (railsOf t.ancillas)
      match ← ofExcept (route.fold width t.fragment) with
      | some folded => addFolded folded
      | none =>
        addPermutation route.forward
        add route.start (some circuit.toComponent)
        addPermutation route.inverse

/-- The finished processor; the ledger is sorted even if the processor is refused. -/
def finish (heralded : Bool) : Step α R (Processor α R) := do
  let a ← get
  if a.network.width ≠ a.supply.width then
    throw (.of .modeCountMismatch [.widths a.network.width a.supply.width])
  else
    let ledger := a.ledger.sorted
    set { a with ledger }
    let p : Processor α R :=
      { network := some a.network, qubitModes := a.supply.qubitModes, sources := ledger.sources,
        heralds := ledger.heralds, conditions := ledger.conditions, heralded,
        success := ledger.success }
    ofExcept p.validate
    return p

end Assembly

end DualRail
