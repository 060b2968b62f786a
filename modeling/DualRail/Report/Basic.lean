import DualRail.Compiler.Counters
import DualRail.Report.Table
import DualRail.Yaml.Content

/-!
Reports on compiled programs, as tables and as YAML documents, and the table of gate kinds.
-/

namespace DualRail

structure ReportEntry where
  modes : List Int
  component : String

/-- What is printed about a compiled program. -/
structure Report (R : Type) where
  name : String
  qubits : Int
  modes : Nat
  heralded : Bool
  success : R
  qubitModes : List ModePair
  sources : List Source
  heralds : List Herald
  conditions : List Condition
  entries : List ReportEntry

namespace Report

variable {α R : Type} [Element α] [Quantity R]

def ofProcessor (program : Program R) (p : Processor α R) : Except Failure (Report R) := do
  let entries ← (p.network.elim [] (·.entries)).mapM fun e =>
    return ⟨← e.storedModes, e.item.summary⟩
  return { name := p.network.elim "" (·.name)
           qubits := program.qubits
           modes := p.width
           heralded := p.heralded
           success := p.success
           qubitModes := p.qubitModes
           sources := p.sources
           heralds := p.heralds
           conditions := p.conditions
           entries }

open Yaml (Content)

def modesContent (modes : List Int) : Content := .inline (modes.map toString)

def pairContent (first second : String) (a b : Int) : Content :=
  .record [(first, .int a), (second, .int b)]

def optionalList (name : String) (items : List Content) : List (String × Content) :=
  if items.isEmpty then [] else [(name, .list items)]

def content (r : Report R) : List (String × Content) :=
  [("name", .text r.name), ("qubits", .int r.qubits), ("modes", .int r.modes),
   ("heralded", .bool r.heralded), ("success_probability", .bare (Quantity.shortest r.success)),
   ("qubit_modes", .list (r.qubitModes.map fun p => pairContent "zero" "one" p.zero p.one)),
   ("sources", .list (r.sources.map fun s => pairContent "mode" "photons" s.mode s.photons))] ++
  optionalList "heralds" (r.heralds.map fun h => pairContent "mode" "count" h.mode h.count) ++
  optionalList "postselect" (r.conditions.map fun c =>
    .record [("modes", modesContent c.modes), ("count", .int c.count)]) ++
  [("network", .list (r.entries.map fun e =>
    .record [("modes", modesContent e.modes), ("component", .text e.component)]))]

def documents (reports : List (Report R)) : String := Content.documents (reports.map content)

def summaryTable (r : Report R) : Table where
  columns := [⟨"Field", .left⟩, ⟨"Value", .left⟩]
  rows :=
    [["qubits", toString r.qubits],
     ["modes", toString r.modes],
     ["mode", CounterChange.modeLabel r.heralded],
     ["sources", pairsText (r.sources.map Source.pair)],
     ["heralds", pairsText (r.heralds.map Herald.pair)],
     ["postselect", Condition.allText r.conditions],
     ["success", Quantity.significant 6 r.success]]

def modesText (modes : List Int) : String := "[" ++ " ".intercalate (modes.map toString) ++ "]"

def networkTable (r : Report R) : Table where
  columns := [⟨"#", .right⟩, ⟨"Modes", .left⟩, ⟨"Component", .left⟩]
  rows := r.entries.mapIdx fun i e => [toString i, modesText e.modes, e.component]

def tables (r : Report R) : String :=
  r.name ++ "\n" ++ r.summaryTable.text ++ r.networkTable.text

def allTables (reports : List (Report R)) : String := "\n".intercalate (reports.map tables)

end Report

def Registry.table {α R : Type} (r : Registry α R) : Table where
  columns :=
    [⟨"Kind", .left⟩, ⟨"Aliases", .left⟩, ⟨"Qubits", .right⟩, ⟨"Params", .right⟩,
     ⟨"Description", .left⟩]
  rows := r.entries.map fun e =>
    [e.kind, ", ".intercalate e.aliases, toString e.arity, toString e.params, e.summary]

end DualRail
