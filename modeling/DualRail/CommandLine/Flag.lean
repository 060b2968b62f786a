import DualRail.Decimal.Reading
import DualRail.Failure

/-!
Flags of a command line. They may stand anywhere among the arguments; `--` ends them. A switch may
be given a value after `=`, any other flag takes one after `=` or from the next argument. Shorthands
of one letter may stand together behind one dash.
-/

namespace DualRail.CommandLine

inductive FlagKind where
  | switch
  | text
  | number
  deriving DecidableEq, Repr

structure Flag where
  name : String
  shorthand : Option Char
  kind : FlagKind
  deriving DecidableEq, Repr

namespace Flag

def verbose : Flag := ⟨"verbose", some 'v', .switch⟩
def help : Flag := ⟨"help", some 'h', .switch⟩
def heralded : Flag := ⟨"heralded", none, .switch⟩
def keepIdentity : Flag := ⟨"keep-identity", none, .switch⟩
def output : Flag := ⟨"output", some 'o', .text⟩
def concurrency : Flag := ⟨"concurrency", none, .number⟩

def label (f : Flag) : String :=
  match f.shorthand with
  | some c => "-" ++ String.singleton c ++ ", --" ++ f.name
  | none => "--" ++ f.name

end Flag

inductive FlagValue where
  | switch (on : Bool)
  | text (s : String)
  | number (i : Int)
  deriving DecidableEq, Repr

structure Arguments where
  flags : List (String × FlagValue)
  operands : List String
  deriving Repr

namespace Arguments

def empty : Arguments := ⟨[], []⟩

def value? (a : Arguments) (f : Flag) : Option FlagValue :=
  (a.flags.find? (·.1 == f.name)).map (·.2)

def isOn (a : Arguments) (f : Flag) : Bool := a.value? f == some (.switch true)

def textOf (a : Arguments) (f : Flag) (fallback : String) : String :=
  match a.value? f with
  | some (.text s) => s
  | _ => fallback

def numberOf (a : Arguments) (f : Flag) (fallback : Int) : Int :=
  match a.value? f with
  | some (.number i) => i
  | _ => fallback

end Arguments

def wrongUsage {α : Type} (u : Usage) : Except Failure α := .error ⟨[], .usage u⟩

def readBool? (s : String) : Option Bool :=
  if ["1", "t", "T", "TRUE", "true", "True"].contains s then some true
  else if ["0", "f", "F", "FALSE", "false", "False"].contains s then some false
  else none

/-- Underscores may part the digits of a number, or its base mark from them. -/
def underscoresFit (cs : List Char) : Bool :=
  let (_, digits) := Decimal.takeSign cs
  match digits with
  | '0' :: x :: rest =>
    if ['b', 'o', 'x'].contains x.toLower then Decimal.underscoresFit true .digit rest
    else Decimal.underscoresFit false .start digits
  | _ => Decimal.underscoresFit false .start digits

def readInteger? (s : String) : Option Int :=
  let cs := s.toList
  if underscoresFit cs then Decimal.readPrefixedInt? (cs.filter (· != '_')) else none

def readValue (f : Flag) (s : String) : Except Failure FlagValue :=
  match f.kind with
  | .text => .ok (.text s)
  | .switch =>
    match readBool? s with
    | some on => .ok (.switch on)
    | none => wrongUsage (.badBool s f.label)
  | .number =>
    match readInteger? s with
    | some i => if Word.InRange i then .ok (.number i) else wrongUsage (.intRange s f.label)
    | none => wrongUsage (.badInt s f.label)

def give (f : Flag) (s : String) (a : Arguments) : Except Failure Arguments := do
  return { a with flags := (f.name, ← readValue f s) :: a.flags }

def named? (known : List Flag) (name : String) : Option Flag := known.find? (·.name == name)

def lettered? (known : List Flag) (c : Char) : Option Flag :=
  known.find? (·.shorthand == some c)

def leadByte (c : Char) : Char :=
  ((String.singleton c).toUTF8.toList.head?.map fun b => Char.ofNat b.toNat).getD c

/-- Reads letters behind a dash. The last may be a flag whose value is the next argument; it is
given back, with the letters from it on. -/
def readCluster (known : List Flag) :
    List Char → Arguments → Except Failure (Arguments × Option (Flag × List Char))
  | [], a => .ok (a, none)
  | c :: rest, a =>
    match lettered? known c with
    | none => wrongUsage (.unknownShorthand (leadByte c) (String.ofList (c :: rest)))
    | some f =>
      match rest with
      | '=' :: x :: more => do return (← give f (String.ofList (x :: more)) a, none)
      | _ =>
        if f.kind = .switch then do readCluster known rest (← give f "true" a)
        else if rest.isEmpty then .ok (a, some (f, c :: rest))
        else do return (← give f (String.ofList rest) a, none)

def splitLong (s : List Char) : List Char × Option (List Char) :=
  let name := s.takeWhile (· != '=')
  (name, if name.length < s.length then some (s.drop (name.length + 1)) else none)

def readArguments (known : List Flag) : List String → Arguments → Except Failure Arguments
  | [], a => .ok { a with operands := a.operands.reverse }
  | s :: rest, a =>
    match s.toList with
    | ['-', '-'] => .ok { a with operands := a.operands.reverse ++ rest }
    | '-' :: '-' :: long =>
      if long.head?.any fun c => c == '-' || c == '=' then wrongUsage (.badFlag s)
      else
        let (name, value?) := splitLong long
        match named? known (String.ofList name), value? with
        | none, _ => wrongUsage (.unknownFlag (String.ofList name))
        | some f, some v => do readArguments known rest (← give f (String.ofList v) a)
        | some f, none =>
          if f.kind = .switch then do readArguments known rest (← give f "true" a)
          else
            match rest with
            | v :: rest => do readArguments known rest (← give f v a)
            | [] => wrongUsage (.missingValue f.name)
    | '-' :: c :: letters => do
      let (a, pending) ← readCluster known (c :: letters) a
      match pending, rest with
      | none, rest => readArguments known rest a
      | some (f, _), v :: rest => do readArguments known rest (← give f v a)
      | some (_, cluster), [] =>
        wrongUsage (.missingShorthandValue (cluster.headD '-') (String.ofList cluster))
    | _ => readArguments known rest { a with operands := s :: a.operands }

/-- While the command is looked for, an unknown flag is taken to have a value after it. -/
def takesNext (known : List Flag) (s : String) : Bool :=
  match s.toList with
  | '-' :: '-' :: long =>
    !long.contains '=' && !(named? known (String.ofList long)).any (·.kind == .switch)
  | ['-', c] => c != '=' && !(lettered? known c).any (·.kind == .switch)
  | _ => false

def bareArguments (known : List Flag) : List String → List String
  | [] => []
  | s :: rest =>
    if s == "--" then []
    else if takesNext known s then
      match rest with
      | _ :: next :: more => bareArguments known (next :: more)
      | _ => []
    else if s != "" && !s.startsWith "-" then s :: bareArguments known rest
    else bareArguments known rest

def withoutCommand (known : List Flag) (name : String) : List String → List String
  | [] => []
  | s :: rest =>
    if s == "--" then s :: rest
    else if takesNext known s then
      match rest with
      | v :: rest => s :: v :: withoutCommand known name rest
      | [] => [s]
    else if s == name then rest
    else s :: withoutCommand known name rest

end DualRail.CommandLine
