import DualRail.Yaml.Style

/-!
What is written to a document, and its text. Records and lists are in block style, two columns
deeper at each level; lists of numbers stand on one line in brackets.
-/

namespace DualRail.Yaml

inductive Content where
  /-- A text, in the style it needs. -/
  | text (s : String)
  /-- A number or a truth value, as it is. -/
  | bare (s : String)
  /-- Numbers on one line. -/
  | inline (items : List String)
  | list (items : List Content)
  | record (fields : List (String × Content))

namespace Content

def int (i : Int) : Content := .bare (toString i)

def bool (b : Bool) : Content := .bare (if b then "true" else "false")

mutual

/-- What follows a field's colon or an entry's dash. The lines of a record within a list start at
`indent`, where its first field stands. -/
def value (indent : Nat) : Content → String
  | .text s =>
    let t := scalarText indent s
    " " ++ t ++ if t.toList.getLast?.any isBreak then "" else "\n"
  | .bare s => " " ++ s ++ "\n"
  | .inline items => " [" ++ ", ".intercalate items ++ "]\n"
  | .list items => if items.isEmpty then " []\n" else "\n" ++ entries indent items
  | .record fields => if fields.isEmpty then " \x7b\x7d\n" else " " ++ block indent true fields

def entries (indent : Nat) : List Content → String
  | [] => ""
  | item :: rest => spaces indent ++ "-" ++ value (indent + indentStep) item ++ entries indent rest

def block (indent : Nat) (placed : Bool) : List (String × Content) → String
  | [] => ""
  | (name, content) :: rest =>
    (if placed then "" else spaces indent) ++ name ++ ":" ++ value (indent + indentStep) content ++
      block indent false rest

end

def document (fields : List (String × Content)) : String := block 0 true fields

def documents (docs : List (List (String × Content))) : String :=
  "---\n".intercalate (docs.map document)

end Content

end DualRail.Yaml
