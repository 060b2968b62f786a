import DualRail.Catalog.Standard

/-!
Settings of a compilation. They are chosen one after the other; an impossible choice is refused
before any work starts.
-/

namespace DualRail

structure Settings (α R : Type) where
  heralded : Bool
  keepIdentity : Bool
  registry : Registry α R
  /-- The registry is the one the settings started with. -/
  ownRegistry : Bool
  concurrency : Option Nat

inductive Choice (α R : Type) where
  | heralded (on : Bool)
  | keepIdentity
  | concurrency (n : Int)
  | registry (r : Option (Registry α R))
  | journal (given : Bool)

namespace Settings

variable {α R : Type}

def ofRegistry (r : Registry α R) : Settings α R :=
  { heralded := false, keepIdentity := false, registry := r, ownRegistry := true,
    concurrency := none }

def standard {R : Type} [Quantity R] : Settings (Device R) R := ofRegistry Standard.registry

def choose (s : Settings α R) : Choice α R → Except Failure (Settings α R)
  | .heralded on => .ok { s with heralded := on }
  | .keepIdentity => .ok { s with keepIdentity := true }
  | .concurrency n =>
    if n < 1 then .error ⟨[], .setting .concurrency⟩
    else .ok { s with concurrency := some n.toNat }
  | .registry none => .error ⟨[], .setting .registry⟩
  | .registry (some r) => .ok { s with registry := r, ownRegistry := false }
  | .journal given => if given then .ok s else .error ⟨[], .setting .journal⟩

def chooseAll (s : Settings α R) (choices : List (Choice α R)) : Except Failure (Settings α R) :=
  choices.foldlM choose s

end Settings

end DualRail
