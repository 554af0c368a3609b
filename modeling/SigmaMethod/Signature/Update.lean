import SigmaMethod.Signature.Basic

/-!
# Writing to a signature matrix

The commands that callers have: they take plain indices and derivative orders and refuse what the matrix has no place
for. `append` is the strict way in, for entries that arrive row by row.
-/

namespace SigmaMethod

/-- One variable in one equation, with the highest order at which it is differentiated there. -/
structure Incidence where
  equation : Nat
  unknown : Nat
  derivative : Int
deriving DecidableEq

namespace Signature

variable {n : Nat}

def insert (equation unknown : Nat) (cost : Int) : Update (Signature n) Unit := do
  let i ← inBound .equation equation n
  let j ← inBound .variable unknown n
  modify (·.put i j cost)

def setDerivative (equation unknown : Nat) (derivative : Int) : Update (Signature n) Unit := do
  let cost ← derivativeCost equation unknown derivative
  insert equation unknown cost

/-- Describes a problem equation by equation; the variable is named first. -/
def declare (unknown equation : Nat) (derivative : Int) : Update (Signature n) Unit :=
  setDerivative equation unknown derivative

def usedRows (m : Signature n) : Nat :=
  match ((List.finRange n).filter fun i => !(m.rows.get i).isEmpty).getLast? with
  | some i => i + 1
  | none => 0

def checkAppend (m : Signature n) (i j : Fin n) : Outcome Unit :=
  if i + 1 < m.usedRows then refuse (.invalidIndex .equation i m.usedRows)
  else
    match (m.rows.get i).entries.getLast? with
    | some (last, _) =>
      if j ≤ last then refuse (.invalidIndex .variable j (last + 1)) else .ok ()
    | none => .ok ()

def append (equation unknown : Nat) (derivative : Int) : Update (Signature n) Unit := do
  let i ← inBound .equation equation n
  let j ← inBound .variable unknown n
  let m ← getThe (Signature n)
  m.checkAppend i j
  let cost ← derivativeCost equation unknown derivative
  set (m.put i j cost)

/-- Records incidences one after the other, up to the first that is refused. -/
def extend : List Incidence → Update (Signature n) Unit
  | [] => pure ()
  | e :: rest => do
    setDerivative e.equation e.unknown e.derivative
    extend rest

def ofIncidences (n : Nat) (incidences : List Incidence) : Outcome (Signature n) :=
  (extend incidences).result (empty n)

end Signature

end SigmaMethod
