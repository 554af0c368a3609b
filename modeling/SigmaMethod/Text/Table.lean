/-!
# Aligned tables

Every cell but the last of its row is filled up with blanks to the widest such cell of its column and two more.
-/

namespace SigmaMethod.Text

abbrev Cell := List Char

def columnWidth (rows : List (List Cell)) (k : Nat) : Nat :=
  (rows.filterMap fun r => r.dropLast[k]?).foldl (fun w c => max w c.length) 0

def alignedFrom (width : Nat → Nat) (k : Nat) : List Cell → List Char
  | [] => []
  | [c] => c
  | c :: rest => c.rightpad (width k + 2) ' ' ++ alignedFrom width (k + 1) rest

def tableText (rows : List (List Cell)) : List Char :=
  rows.flatMap fun r => alignedFrom (columnWidth rows) 0 r ++ ['\n']

end SigmaMethod.Text
