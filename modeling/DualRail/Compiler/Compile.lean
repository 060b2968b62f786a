import DualRail.Compiler.Assembly
import DualRail.Compiler.Settings

/-!
Compilation of a program. Gates are resolved and placed in program order; the first one that
fails ends the compilation with its index and its kind as written. What happened is kept in a
journal beside the result.
-/

namespace DualRail

inductive Event (R : Type) where
  | gateRejected (index : Nat) (kind : String) (failure : Failure)
  | gateCompiled (index : Nat) (kind : String) (qubits : List Int) (pairs modes : Nat)
  | programCompiled (name : String) (qubits : Int) (gates modes entries : Nat) (heralded : Bool)
      (success : R)

structure Journaled (R β : Type) where
  journal : List (Event R)
  result : Except Failure β

variable {α R : Type} [Element α] [Quantity R]

/-- Resolves and places a gate; gives its canonical kind and the number of its new pairs. -/
def compileGate (s : Settings α R) (g : Gate R) : Assembly.Step α R (String × Nat) := do
  let t ← Assembly.resolve s.registry s.heralded g
  Assembly.placeFragment t
  return (t.kind, t.ancillas.length)

/-- Compiles the gates from index `index` on. -/
def compileGates (s : Settings α R) :
    Nat → List (Gate R) → Assembly α R → Journaled R (Assembly α R)
  | _, [], a => ⟨[], .ok a⟩
  | index, g :: rest, a =>
    match compileGate s g a with
    | .error f _ => ⟨[.gateRejected index g.kind f], .error (f.noted (.gate index g.kind))⟩
    | .ok (kind, pairs) a =>
      let later := compileGates s (index + 1) rest a
      { later with
        journal := .gateCompiled index kind g.qubits pairs a.supply.width :: later.journal }

def networkName (name : String) : String := if name = "" then "network" else name

def finishProgram (s : Settings α R) (p : Program R) (a : Assembly α R) :
    Journaled R (Processor α R) :=
  match Assembly.finish s.heralded a with
  | .error f _ => ⟨[], .error f⟩
  | .ok proc _ =>
    ⟨[.programCompiled (networkName p.name) p.qubits p.gates.length proc.width proc.length
        s.heralded proc.success], .ok proc⟩

def compileJournaled (s : Settings α R) (p : Option (Program R)) :
    Journaled R (Processor α R) :=
  match p with
  | none => ⟨[], refuse .noQubits [.noCircuit]⟩
  | some p =>
    match Assembly.start p.qubits (networkName p.name) s.keepIdentity with
    | .error f => ⟨[], .error f⟩
    | .ok a =>
      let gates := compileGates s 0 p.gates a
      match gates.result with
      | .error f => ⟨gates.journal, .error f⟩
      | .ok a =>
        let final := finishProgram s p a
        { final with journal := gates.journal ++ final.journal }

def compile (s : Settings α R) (p : Option (Program R)) : Except Failure (Processor α R) :=
  (compileJournaled s p).result

end DualRail
