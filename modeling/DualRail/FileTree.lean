/-!
Files by path. A path is taken apart at its slashes and walked from the directory the files are in;
a directory is there if some file is in it.
-/

namespace DualRail

inductive Found where
  | file (text : String)
  | directory
  | missing
  /-- The path goes on below a file. -/
  | obstructed

structure FileTree where
  /-- Files by the names on their paths. -/
  files : List (List String × String)

namespace FileTree

/-- The names on a path; `.` and empty ones say nothing. -/
def names (path : String) : List String :=
  (path.splitOn "/").filter fun s => s != "" && s != "."

def ofFiles (files : List (String × String)) : FileTree :=
  ⟨files.map fun (path, text) => (names path, text)⟩

def foundAt (t : FileTree) (place : List String) : Found :=
  match t.files.find? (·.1 == place) with
  | some (_, text) => .file text
  | none =>
    if place.isEmpty || t.files.any fun f => place.isPrefixOf f.1 then .directory else .missing

/-- Walks from a place along names; nothing is known above the root. -/
def walk (t : FileTree) : List String → List String → Found
  | place, [] => t.foundAt place
  | place, name :: rest =>
    match t.foundAt place with
    | .directory =>
      if name == ".." then if place.isEmpty then .missing else t.walk place.dropLast rest
      else t.walk (place ++ [name]) rest
    | .file _ => .obstructed
    | _ => .missing

def find (t : FileTree) (path : String) : Found :=
  if path.isEmpty || path.startsWith "/" then .missing
  else
    match t.walk [] (names path) with
    | .file text => if path.endsWith "/" || path.endsWith "/." then .obstructed else .file text
    | found => found

end FileTree

def baseName (path : String) : String :=
  if path.isEmpty then "."
  else
    let trimmed := (path.toList.reverse.dropWhile (· == '/')).takeWhile (· != '/')
    if trimmed.isEmpty then "/" else String.ofList trimmed.reverse

def withoutExtension (name : String) : String :=
  if name.toList.contains '.' then
    String.ofList ((name.toList.reverse.dropWhile (· != '.')).drop 1).reverse
  else name

end DualRail
