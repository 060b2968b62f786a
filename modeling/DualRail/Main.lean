import DualRail.CommandLine.Command

/-!
The command line program. It reads the files a command names, prints what the command gives, and
ends with one after a failure.
-/

namespace DualRail

def isDirectoryCode : UInt32 := 21

def readFound (path : String) : IO Found := do
  try
    return .file (← IO.FS.readFile path)
  catch
    | .inappropriateType _ code _ =>
      return if code = isDirectoryCode then .directory else .obstructed
    | _ => return .missing

def findIn (files : List (String × Found)) (path : String) : Found :=
  ((files.find? (·.1 == path)).map (·.2)).getD .missing

def fail (f : Failure) : IO UInt32 := do
  IO.eprintln ("Error: " ++ f.message)
  return 1

def execute (command : CommandLine.Command) : IO UInt32 := do
  let files ← command.files.mapM fun path => do return (path, ← readFound path)
  for line in command.journal (findIn files) do
    IO.eprintln line
  match command.run (findIn files) with
  | .ok text =>
    IO.print text
    return 0
  | .error f => fail f

end DualRail

def main (args : List String) : IO UInt32 :=
  match DualRail.CommandLine.parse args with
  | .ok command => DualRail.execute command
  | .error f => DualRail.fail f
