import SigmaMethod.Signature.Update

/-!
# Reading a signature matrix

What callers with plain indices can ask. An index outside the matrix is no error here: there is nothing to find.
-/

namespace SigmaMethod

namespace Signature

variable {n : Nat}

/-- The cost at a position, none outside the matrix. -/
def cost? (m : Signature n) (i j : Nat) : Option Int :=
  if hi : i < n then if hj : j < n then m.get ⟨i, hi⟩ ⟨j, hj⟩ else none else none

def derivative? (m : Signature n) (i j : Nat) : Outcome (Option Int) :=
  match m.cost? i j with
  | some x => some <$> fit (-x)
  | none => pure none

def cheapestRow? (m : Signature n) (j : Nat) : Option Nat :=
  if h : j < n then (m.cheapest.get ⟨j, h⟩).map Fin.val else none

def row (m : Signature n) (i : Nat) : List (Nat × Int) :=
  if h : i < n then (m.rows.get ⟨i, h⟩).entries.map fun (j, x) => (j, x) else []

def rowSize (m : Signature n) (i : Nat) : Nat :=
  if h : i < n then (m.rows.get ⟨i, h⟩).size else 0

def incidences (m : Signature n) : Outcome (List Incidence) :=
  m.entries.mapM fun (i, j, x) => do
    let derivative ← fit (-x)
    return ⟨i, j, derivative⟩

def density (m : Signature n) : Float :=
  if n = 0 then 0 else Float.ofNat m.nnz / Float.ofNat (n * n)

/-- The rows end to end: where each starts, and the columns and costs in one sequence. -/
structure Compact where
  starts : List Nat
  columns : List Nat
  costs : List Int

def startsFrom (count : Nat) : List (Row n) → List Nat
  | [] => [count]
  | r :: rest => count :: startsFrom (count + r.size) rest

def compact (m : Signature n) : Compact where
  starts := startsFrom 0 m.rows.toList
  columns := m.rows.toList.flatMap fun r => r.entries.map fun (j, _) => j.val
  costs := m.rows.toList.flatMap fun r => r.entries.map fun (_, x) => x

end Signature

end SigmaMethod
