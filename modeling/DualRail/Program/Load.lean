import DualRail.FileTree
import DualRail.Program.Document

/-!
Programs from files. A program without a name takes that of its file, without the extension.
-/

namespace DualRail.Program

def withDefaultName (p : Program Float) (path : String) : Program Float :=
  if p.name.isEmpty then { p with name := withoutExtension (baseName path) } else p

def load (find : String → Found) (path : String) : Except Failure (Program Float) :=
  match find path with
  | .missing => refuse .notFound [.loading, .opening path]
  | .obstructed => refuse .notDirectory [.loading, .opening path]
  | .directory => refuse .malformedDocument [.loadingFile path, .decoding]
  | .file text => do
    let p ← noting (.loadingFile path) (decode text)
    return p.withDefaultName path

end DualRail.Program
