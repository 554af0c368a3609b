import SigmaMethod.Matching.Rank
import SigmaMethod.Matching.Search

/-!
# Reduction

The cheap phases that match most rows before any search: each column offers itself to its cheapest row, rows that got
exactly one offer pass their slack on to their column, and in sweeps the rows that are left take the column of least
reduced cost, displacing other rows. Every phase keeps the matched entries least in their rows under the reduced costs.
-/

namespace SigmaMethod

variable {n : Nat}

/-! ## Columns choose rows -/

structure Offers (n : Nat) where
  assignment : DualAssignment n
  count : Vector Nat n

/-- Column `j` chooses its cheapest row, which takes it if it is the first to come. -/
def Offers.choose (m : Signature n) (o : Offers n) (j : Fin n) : Outcome (Offers n) :=
  match m.cheapest.get j with
  | none => refuse m.singularity
  | some i => do
    let x ← m.pairCost i j
    let a := o.assignment.setPotential j x
    return ⟨if o.count.get i = 0 then a.pair i j else a, o.count.put i (o.count.get i + 1)⟩

/-- All columns choose, the last one first. -/
def columnReduction (m : Signature n) : Outcome (Offers n) :=
  (List.finRange n).reverse.foldlM (Offers.choose m) ⟨.zero n, Vector.replicate n 0⟩

/-! ## Rows pass slack on -/

def leastOf (best : Option Int) (x : Int) : Option Int :=
  match best with
  | none => some x
  | some y => some (min x y)

/-- What row `i` would pay more in its next best column than in column `j`, as a reduced cost. -/
def Signature.slack (m : Signature n) (v : Vector Int n) (i j : Fin n) : Outcome (Option Int) :=
  ((m.rows.get i).entries.filter fun e => e.1 ≠ j).foldlM (fun best (k, x) => do
    let h ← fit (x - v.get k)
    return leastOf best h) none

def DualAssignment.transfer (m : Signature n) (a : DualAssignment n) (i : Fin n) : Outcome (DualAssignment n) :=
  match a.columnOf.get i with
  | none => .ok a
  | some j => do
    match ← m.slack a.v i j with
    | none => return a
    | some slack =>
      let x ← fit (a.v.get j - slack)
      return a.setPotential j x

/-- Rows chosen exactly once pass their slack on. The rows nobody chose are free. -/
def reductionTransfer (m : Signature n) (o : Offers n) : Outcome (DualAssignment n × List (Fin n)) := do
  let single := (List.finRange n).filter fun i => o.count.get i = 1
  let a ← single.foldlM (DualAssignment.transfer m) o.assignment
  return (a, (List.finRange n).filter fun i => o.count.get i = 0)

/-! ## Rows displace rows -/

structure Cheapest2 (n : Nat) where
  column : Fin n
  least : Int
  second : Option (Fin n × Int)

def Cheapest2.add (c : Cheapest2 n) (j : Fin n) (h : Int) : Cheapest2 n :=
  if c.second.all (h < ·.2) then
    if c.least ≤ h then { c with second := some (j, h) }
    else ⟨j, h, some (c.column, c.least)⟩
  else c

def Signature.cheapest2 (m : Signature n) (v : Vector Int n) (i : Fin n) : Outcome (Option (Cheapest2 n)) :=
  match (m.rows.get i).entries with
  | [] => .ok none
  | (j, x) :: rest => do
    let h ← fit (x - v.get j)
    let c ← rest.foldlM (fun (c : Cheapest2 n) (k, y) => do
      let h ← fit (y - v.get k)
      return c.add k h) ⟨j, h, none⟩
    return some c

/-- A sweep under way: the rows still to be processed, the rows that stay free, and how often a displaced row may still
be processed at once. -/
structure Sweep (n : Nat) where
  assignment : DualAssignment n
  pending : List (Fin n)
  left : List (Fin n)
  budget : Nat

namespace Sweep

def measure (s : Sweep n) : Nat := s.pending.length + s.budget

/-- Row `i` takes column `j`; the row that held it goes next if `again` says so and the budget allows it, and else stays
free. -/
def take (s : Sweep n) (i j : Fin n) (again : Bool) : Sweep n :=
  let displaced := s.assignment.rowOf.get j
  let a := s.assignment.pair i j
  match displaced with
  | none => { s with assignment := a }
  | some r =>
    let a := { a with columnOf := a.columnOf.put r none }
    if again && 0 < s.budget then
      { s with assignment := a, pending := r :: s.pending, budget := s.budget - 1 }
    else { s with assignment := a, left := r :: s.left }

/-- One row takes a column. If its least reduced cost is below the second least, the column pays the difference; at a
tie the row goes around a column that is taken. -/
def step (m : Signature n) (s : Sweep n) : Outcome (Sweep n) :=
  match s.pending with
  | [] => .ok s
  | i :: pending => do
    let s := { s with pending }
    match ← m.cheapest2 s.assignment.v i with
    | none => return { s with left := i :: s.left }
    | some c =>
      match c.second with
      | none => return s.take i c.column false
      | some (k, second) =>
        if c.least < second then
          let gap ← fit (second - c.least)
          let x ← fit (s.assignment.v.get c.column - gap)
          return { s with assignment := s.assignment.setPotential c.column x }.take i c.column true
        else if (s.assignment.rowOf.get c.column).isSome then return s.take i k false
        else return s.take i c.column false

def run (m : Signature n) : (fuel : Nat) → Sweep n → Outcome (Sweep n)
  | 0, s => .ok s
  | fuel + 1, s => do
    let s ← s.step m
    run m fuel s

end Sweep

def rowReduction (m : Signature n) (a : DualAssignment n) (free : List (Fin n)) :
    Outcome (DualAssignment n × List (Fin n)) := do
  let s : Sweep n := ⟨a, free, [], n⟩
  let s ← s.run m s.measure
  return (s.assignment, s.left.reverse)

def rowReductions (m : Signature n) :
    (sweeps : Nat) → DualAssignment n → List (Fin n) → Outcome (DualAssignment n × List (Fin n))
  | 0, a, free => .ok (a, free)
  | sweeps + 1, a, free => do
    let (a, free) ← rowReduction m a free
    rowReductions m sweeps a free

def reduction (m : Signature n) (sweeps : Nat) : Outcome (DualAssignment n × List (Fin n)) := do
  let offers ← columnReduction m
  let (a, free) ← reductionTransfer m offers
  rowReductions m sweeps a free

end SigmaMethod
