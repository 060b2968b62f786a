import DualRail.CommandLine.Flag
import DualRail.CommandLine.Help
import DualRail.Compiler.Batch
import DualRail.Compiler.Journal
import DualRail.Program.Load
import DualRail.Report.Basic
import DualRail.Text.Distance

/-!
The commands: `compile` prints reports on program files, `gates` lists the gate kinds. Nothing is
printed unless the whole command succeeds.
-/

namespace DualRail.CommandLine

structure CompileOptions where
  verbose : Bool
  heralded : Bool
  keepIdentity : Bool
  output : String
  concurrency : Int
  files : List String

inductive Command where
  | print (text : String)
  | gates
  | compile (options : CompileOptions)

def commandNames : List String := ["compile", "gates", "completion"]

def lowered (s : String) : List Char := s.toList.map Text.lowerCase

/-- A name is similar if two edits lead to it or if it goes on where the given one ends. -/
def isSimilar (given name : String) : Bool :=
  Text.distance (String.ofList (lowered given)).toUTF8.toList name.toUTF8.toList ≤ 2 ||
    (lowered given).isPrefixOf name.toList

def unknownCommand {α : Type} (name : String) : Except Failure α :=
  wrongUsage (.unknownCommand name "photonc" (commandNames.filter (isSimilar name)))

def sharedFlags : List Flag := [.verbose]

def compileFlags : List Flag := [.heralded, .keepIdentity, .output, .concurrency]

def orHelp (flags : List Flag) (help : String) (args : List String)
    (command : Arguments → Except Failure Command) : Except Failure Command := do
  let a ← readArguments (Flag.help :: flags ++ sharedFlags) args .empty
  if a.isOn .help then return .print help else command a

def compileCommand (args : List String) : Except Failure Command :=
  orHelp compileFlags Help.compile args fun a =>
    if a.operands.isEmpty then wrongUsage (.tooFewArguments 1 0)
    else
      .ok (.compile
        { verbose := a.isOn .verbose
          heralded := a.isOn .heralded
          keepIdentity := a.isOn .keepIdentity
          output := a.textOf .output "table"
          concurrency := a.numberOf .concurrency 0
          files := a.operands })

def gatesCommand (args : List String) : Except Failure Command :=
  orHelp [] Help.gates args fun a =>
    match a.operands with
    | [] => .ok .gates
    | extra :: _ => wrongUsage (.unknownCommand extra "photonc gates" [])

def helpCommand (args : List String) : Except Failure Command :=
  orHelp [] Help.overview args fun a =>
    match a.operands with
    | "compile" :: _ => .ok (.print Help.compile)
    | "gates" :: _ => .ok (.print Help.gates)
    | _ => .ok (.print Help.overview)

def parse (args : List String) : Except Failure Command :=
  match bareArguments sharedFlags args with
  | [] => orHelp [] Help.overview args fun _ => .ok (.print Help.overview)
  | name :: _ =>
    let rest := withoutCommand sharedFlags name args
    match name with
    | "compile" => compileCommand rest
    | "gates" => gatesCommand rest
    | "help" => helpCommand rest
    | _ => unknownCommand name

/-- The settings a command line stands for; a concurrency below one is the default. -/
def CompileOptions.settings (o : CompileOptions) :
    Except Failure (Settings (Device Float) Float) :=
  Settings.standard.chooseAll
    ([.heralded o.heralded] ++ (if o.keepIdentity then [.keepIdentity] else []) ++
      if 0 < o.concurrency then [.concurrency o.concurrency] else [])

def CompileOptions.run (o : CompileOptions) (find : String → Found) : Except Failure String := do
  if o.output != "table" && o.output != "yaml" then wrongUsage (.unknownFormat o.output)
  else
    let programs ← o.files.mapM (Program.load find)
    let processors ← noting .compiling (compileAll (← o.settings) false (programs.map some))
    let reports ← (programs.zip processors).mapM fun (p, q) => Report.ofProcessor p q
    return if o.output == "yaml" then Report.documents reports else Report.allTables reports

def CompileOptions.journal (o : CompileOptions) (find : String → Found) : List String :=
  match o.verbose, o.settings with
  | true, .ok settings =>
    o.files.flatMap fun path =>
      match Program.load find path with
      | .ok p => (compileJournaled settings (some p)).journal.map Event.text
      | .error _ => []
  | _, _ => []

namespace Command

def files : Command → List String
  | .compile o => o.files
  | _ => []

def journal (find : String → Found) : Command → List String
  | .compile o => o.journal find
  | _ => []

def run (find : String → Found) : Command → Except Failure String
  | .print text => .ok text
  | .gates => .ok (Registry.table (Standard.registry : Registry (Device Float) Float)).text
  | .compile o => o.run find

end Command

def run (find : String → Found) (args : List String) : Except Failure String :=
  (parse args).bind (·.run find)

end DualRail.CommandLine
