import DualRail.Network.Basic

/-!
Processors: a network together with the modes of its qubits, the photons put in, the counts that
herald success and the conditions that select it afterwards. `Processor.validate` checks that these
records fit the network, and `Processor.accepts` decides whether an output pattern counts.
-/

namespace DualRail

/-- The two rails of a qubit. -/
structure ModePair where
  zero : Int
  one : Int
  deriving DecidableEq, Repr

structure Source where
  mode : Int
  photons : Int
  deriving DecidableEq, Repr

structure Herald where
  mode : Int
  count : Int
  deriving DecidableEq, Repr

/-- The photons on some modes add up to a count. -/
structure Condition where
  modes : List Int
  count : Int
  deriving DecidableEq, Repr

namespace Condition

/-- The sum is a word and wraps around. -/
def holds (c : Condition) (output : List Int) : Bool :=
  c.modes.foldl (fun sum m => Word.wrap (sum + output.getD m.toNat 0)) 0 == c.count

def text (c : Condition) : String :=
  "[" ++ ",".intercalate (c.modes.map toString) ++ "]==" ++ toString c.count

def allText (cs : List Condition) : String :=
  if cs.isEmpty then "true" else " & ".intercalate (cs.map text)

end Condition

structure Processor (α R : Type) where
  network : Option (Network α)
  qubitModes : List ModePair
  sources : List Source
  heralds : List Herald
  conditions : List Condition
  heralded : Bool
  success : R

def lastByKey (pairs : List (Int × Int)) : List (Int × Int) :=
  let keep := pairs.foldl (fun kept p => kept.filter (·.1 != p.1) ++ [p]) []
  keep.mergeSort fun a b => a.1 ≤ b.1

def pairsText (pairs : List (Int × Int)) : String :=
  "[" ++ " ".intercalate (pairs.map fun (a, b) => "\x7b" ++ s!"{a} {b}" ++ "\x7d") ++ "]"

namespace Source

def pair (s : Source) : Int × Int := (s.mode, s.photons)

end Source

namespace Herald

def pair (h : Herald) : Int × Int := (h.mode, h.count)

end Herald

namespace Processor

variable {α R : Type}

def width (p : Processor α R) : Nat :=
  match p.network with
  | some n => n.width
  | none => 0

def length (p : Processor α R) : Nat :=
  match p.network with
  | some n => n.length
  | none => 0

/-- The photons on each mode; several sources on one mode add up. -/
def inputState (p : Processor α R) : List Int :=
  (List.range p.width).map fun (i : Nat) =>
    (p.sources.filter fun s => s.mode == (i : Int)).foldl
      (fun sum s => Word.wrap (sum + s.photons)) 0

def storedInputState (p : Processor α R) : Except Failure (List Int) := do
  let _ ← Storage.reserve p.width 8
  return p.inputState

def sourceMap (p : Processor α R) : List (Int × Int) := lastByKey (p.sources.map Source.pair)

def heraldMap (p : Processor α R) : List (Int × Int) := lastByKey (p.heralds.map Herald.pair)

def inRange (m : Nat) (mode : Int) : Bool := 0 ≤ mode && mode < m

def shareRail (a b : ModePair) : Bool :=
  a.zero == b.zero || a.zero == b.one || a.one == b.zero || a.one == b.one

def checkPairs (m : Nat) : Nat → List ModePair → List ModePair → Except Failure Unit
  | _, _, [] => .ok ()
  | q, earlier, pair :: rest =>
    if pair.one ≠ Word.wrap (pair.zero + 1) || !inRange m pair.zero || !inRange m pair.one ||
        earlier.any (shareRail pair) then
      refuse .invalidPair [.pair q pair.zero pair.one]
    else checkPairs m (q + 1) (pair :: earlier) rest

/-- Checks records of mode and count, each on a higher mode than the one before. -/
def checkRecords (m : Nat) (kind : RecordKind) : Int → List (Int × Int) → Except Failure Unit
  | _, [] => .ok ()
  | previous, (mode, count) :: rest =>
    if !inRange m mode then refuse .recordRange [.recordOf kind mode m]
    else if mode ≤ previous then refuse .unsorted [.recordAfter kind mode previous]
    else if count < 0 then refuse .negativeCount [.record kind mode]
    else checkRecords m kind mode rest

def checkConditions (m : Nat) : List Condition → Except Failure Unit
  | [] => .ok ()
  | c :: rest =>
    if !c.modes.all (inRange m) then refuse .recordRange [.condition c.text]
    else if c.count < 0 then refuse .negativeCount [.condition c.text]
    else checkConditions m rest

variable [Quantity R]

def checkProbability (x : R) : Except Failure Unit :=
  if Quantity.le x 0 || Quantity.lt 1 x then
    refuse .invalidProbability [.probability (Quantity.shortest x)]
  else .ok ()

def validate (p : Processor α R) : Except Failure Unit :=
  match p.network with
  | none => refuse .noNetwork []
  | some n => do
    checkPairs n.width 0 [] p.qubitModes
    checkRecords n.width .source (-1) (p.sources.map Source.pair)
    checkRecords n.width .herald (-1) (p.heralds.map Herald.pair)
    checkConditions n.width p.conditions
    if !p.heralds.isEmpty && !p.conditions.isEmpty then refuse .conflictingConditions []
    else checkProbability p.success

def accepts (p : Processor α R) (output : List Int) : Except Failure Bool := do
  p.validate
  if output.length ≠ p.width then refuse .occupationLength [.occupation output.length p.width]
  else
    return (p.heralds.all fun h => output.getD h.mode.toNat 0 == h.count) &&
      p.conditions.all (·.holds output)

def text (p : Processor α R) : String :=
  s!"processor: {p.width} modes, {p.qubitModes.length} qubits, {p.length} entries\n" ++
    "  sources: " ++ pairsText (p.sources.map Source.pair) ++ "\n" ++
    "  heralds: " ++ pairsText (p.heralds.map Herald.pair) ++ "\n" ++
    "  postselect: " ++ Condition.allText p.conditions ++ "\n" ++
    "  success: " ++ Quantity.significant 6 p.success ++ "\n"

end Processor

end DualRail
