/-!
The edit distance of two words: the least number of characters to insert, delete or replace.
-/

namespace DualRail.Text

/-- The distances of one more character `c` of the first word from the beginnings of the second,
out of those without it. `left` is the distance just found, `corner` the old one beside it. -/
def nextDistances {α : Type} [BEq α] (c : α) : Nat → Nat → List α → List Nat → List Nat
  | left, corner, d :: ds, above :: rest =>
    let here := Nat.min (Nat.min (left + 1) (above + 1)) (if c == d then corner else corner + 1)
    here :: nextDistances c here above ds rest
  | _, _, _, _ => []

def distances {α : Type} [BEq α] (a b : List α) : List Nat :=
  a.foldl (fun row c =>
    match row with
    | first :: rest => (first + 1) :: nextDistances c (first + 1) first b rest
    | [] => []) (List.range (b.length + 1))

def distance {α : Type} [BEq α] (a b : List α) : Nat := (distances a b).getLastD 0

end DualRail.Text
