import SigmaMethod.Checked

/-!
# Renumbering after deletions

Deleting an index moves every later one down. The new number of an index is the old one less the number of deletions
before it, which is constant between deletions and kept as such: for each interval its first index and the shift from
there on.
-/

namespace SigmaMethod

def insertNew (k : Nat) : List Nat → Option (List Nat)
  | [] => some [k]
  | l :: rest =>
    if k < l then some (k :: l :: rest)
    else if k = l then none
    else (insertNew k rest).map (l :: ·)

def increasing (ks : List Nat) : List Nat :=
  ks.foldl (fun sorted k => (insertNew k sorted).getD sorted) []

structure Renumbering where
  bound : Nat
  deleted : List Nat
  /-- First index and shift of each interval, the last interval first. -/
  intervals : List (Nat × Nat)
deriving DecidableEq

namespace Renumbering

def addInterval (intervals : List (Nat × Nat)) (k : Nat) : Outcome (List (Nat × Nat)) := do
  let first ← fitIndex (k + 1)
  return (first, intervals.length) :: intervals

def ofDeleted (bound : Nat) (deleted : List Nat) : Outcome Renumbering := do
  let intervals ← deleted.foldlM addInterval [(0, 0)]
  return ⟨bound, deleted, intervals⟩

def isDeleted (r : Renumbering) (i : Nat) : Bool := i ∈ r.deleted

def shiftAt (r : Renumbering) (i : Nat) : Option Nat :=
  (r.intervals.find? fun interval => interval.1 ≤ i).map (·.2)

def rename (r : Renumbering) (i : Nat) : Outcome (Option Nat) :=
  if r.bound ≤ i || r.isDeleted i then .ok none
  else
    match r.shiftAt i with
    | none => .ok none
    | some shift => some <$> indexSub i shift

def surviving (r : Renumbering) : Outcome Nat := indexSub r.bound r.deleted.length

end Renumbering

end SigmaMethod
