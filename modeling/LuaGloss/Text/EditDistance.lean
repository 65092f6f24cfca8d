/-!
# Edit distance

The least number of letters that have to be inserted, removed or replaced to
turn one word into another.  It is computed row by row: after some letters of
the first word, the row holds the distances to all beginnings of the second.
-/

namespace LuaGloss

/-- The rest of the row after one more letter, given the distance to its left
and the row above. -/
def editRow [BEq α] (letter : α) (left : Nat) : List α → List Nat → List Nat
  | b :: word, corner :: above :: row =>
    let distance :=
      min (min (left + 1) (above + 1)) (corner + if letter == b then 0 else 1)
    distance :: editRow letter distance word (above :: row)
  | _, _ => []

def editDistance [BEq α] (first second : List α) : Nat :=
  let step (row : List Nat) (letter : α) : List Nat :=
    let left := row.headD 0 + 1
    left :: editRow letter left second row
  (first.foldl step (List.range (second.length + 1))).getLastD 0

end LuaGloss
