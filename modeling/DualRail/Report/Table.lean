/-!
Tables in boxes. Every column is as wide as its widest cell, with a blank on both sides; the header
is set off by heavy lines.
-/

namespace DualRail

inductive Align where
  | left
  | right
  deriving DecidableEq, Repr

structure Column where
  title : String
  align : Align
  deriving DecidableEq, Repr

structure Table where
  columns : List Column
  rows : List (List String)
  deriving DecidableEq, Repr

namespace Table

structure Rule where
  left : String
  joint : String
  right : String
  line : String

def Rule.top : Rule := ⟨"┏", "┳", "┓", "━"⟩
def Rule.middle : Rule := ⟨"┡", "╇", "┩", "━"⟩
def Rule.bottom : Rule := ⟨"└", "┴", "┘", "─"⟩
def Rule.bareBottom : Rule := ⟨"┗", "┻", "┛", "━"⟩

def widthOf (rows : List (List String)) (index : Nat) (title : String) : Nat :=
  rows.foldl (fun w row => Nat.max w ((row[index]?).getD "").length) title.length

def widths (t : Table) : List Nat :=
  t.columns.mapIdx fun i c => widthOf t.rows i c.title

def repeated (s : String) (n : Nat) : String := String.join (List.replicate n s)

def Rule.text (r : Rule) (widths : List Nat) : String :=
  r.left ++ r.joint.intercalate (widths.map fun w => repeated r.line (w + 2)) ++ r.right ++ "\n"

def cell (align : Align) (width : Nat) (s : String) : String :=
  let pad := repeated " " (width - s.length)
  match align with
  | .left => " " ++ s ++ pad ++ " "
  | .right => " " ++ pad ++ s ++ " "

def line (bar : String) (columns : List Column) (widths : List Nat) (cells : List String) :
    String :=
  let parts := (columns.zip (widths.zip cells)).map fun (c, w, s) => cell c.align w s
  bar ++ bar.intercalate parts ++ bar ++ "\n"

def text (t : Table) : String :=
  let ws := t.widths
  let head := Rule.top.text ws ++ line "┃" t.columns ws (t.columns.map (·.title))
  if t.rows.isEmpty then head ++ Rule.bareBottom.text ws
  else
    head ++ Rule.middle.text ws ++ String.join (t.rows.map (line "│" t.columns ws)) ++
      Rule.bottom.text ws

end Table

end DualRail
