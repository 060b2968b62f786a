import DualRail.Compiler.Compile

/-!
The counters a compilation moves: one compilation by mode and result, and on success one gate for
each gate of the program by kind and the ancilla modes handed out.
-/

namespace DualRail

structure CounterChange where
  counter : String
  labels : List (String × String)
  amount : Nat
  deriving DecidableEq, Repr

namespace CounterChange

def text (c : CounterChange) : String :=
  "lvphoton_compiler_" ++ c.counter ++
    String.join (c.labels.map fun (label, value) => " " ++ label ++ "=" ++ value) ++
    s!" +{c.amount}"

def modeLabel (heralded : Bool) : String := if heralded then "heralded" else "postselected"

variable {α R : Type}

def compilation (heralded : Bool) (result : Except Failure (Processor α R)) : CounterChange :=
  ⟨"compilations_total",
    [("mode", modeLabel heralded), ("result", if result.isOk then "success" else "error")], 1⟩

def gateKinds (journal : List (Event R)) : List String :=
  journal.filterMap fun | .gateCompiled _ kind _ _ _ => some kind | _ => none

def countKind (counts : List (String × Nat)) (kind : String) : List (String × Nat) :=
  if counts.any (·.1 == kind) then
    counts.map fun (k, n) => if k == kind then (k, n + 1) else (k, n)
  else counts ++ [(kind, 1)]

def gates (journal : List (Event R)) : List CounterChange :=
  ((gateKinds journal).foldl countKind []).map fun (kind, n) =>
    ⟨"gates_total", [("kind", kind)], n⟩

def ancillas (p : Processor α R) : List CounterChange :=
  let modes := p.width - 2 * p.qubitModes.length
  if modes = 0 then [] else [⟨"ancilla_modes_total", [], modes⟩]

def lines (heralded : Bool) (run : Journaled R (Processor α R)) : List String :=
  let changes :=
    match run.result with
    | .ok p => compilation heralded run.result :: gates run.journal ++ ancillas p
    | .error _ => [compilation heralded run.result]
  (changes.map text).mergeSort fun a b => !nameBefore b.toList a.toList

end CounterChange

end DualRail
