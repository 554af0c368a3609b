import SigmaMethod.Matching.Record

/-!
# The result of an analysis

`Analysis` holds the offsets of a problem with the matching they come from. When components were compressed for the
analysis, its `Layout` says where their equations and variables are now. The vectors of a record may come from anywhere,
so queries test what they use, and `verify` tests the offsets against a matrix.
-/

namespace SigmaMethod

/-- Where the parts of a problem with components are once the components are spelled out: for each placed component its
first row, its first private column and its number of private variables, and for each outer row the row it became, none
for the row that stood in for a component. -/
structure Layout where
  componentRows : Array Nat
  componentColumns : Array Nat
  privates : Array Nat
  outerRows : Array (Option Nat)
deriving DecidableEq

namespace Layout

def components (l : Layout) : Nat := l.componentRows.size

def extractedEquation (l : Layout) (equation k : Nat) : Outcome Nat := do
  checkIndex .componentInstance k l.components
  let p ← lookAt l.privates k
  let bound ← fitIndex (p + 1)
  checkIndex .componentEquation equation bound
  let first ← lookAt l.componentRows k
  fitIndex (first + equation)

def extractedVariable (l : Layout) (unknown k : Nat) : Outcome Nat := do
  checkIndex .componentInstance k l.components
  let p ← lookAt l.privates k
  checkIndex .privateVariable unknown p
  let first ← lookAt l.componentColumns k
  fitIndex (first + unknown)

def outerEquation (l : Layout) (i : Nat) : Outcome (Option Nat) := do
  checkIndex .equation i l.outerRows.size
  lookAt l.outerRows i

end Layout

structure Analysis where
  c : Array Int
  d : Array Int
  columnOf : Array Nat
  rowOf : Array Nat
  cost : Int
  layout : Option Layout
deriving DecidableEq

namespace Analysis

def dimension (a : Analysis) : Nat := a.c.size

def equationOffset (a : Analysis) (i : Nat) : Outcome Int := do
  checkIndex .equation i a.c.size
  lookAt a.c i

def variableOffset (a : Analysis) (j : Nat) : Outcome Int := do
  checkIndex .variable j a.d.size
  lookAt a.d j

/-- The greatest offset of an equation, and one more if some variable occurs undifferentiated. -/
def structuralIndex (a : Analysis) : Outcome Int :=
  let most := (a.c.toList.max?).getD 0
  if 0 ∈ a.d.toList then fit (most + 1) else .ok most

def requireLayout (a : Analysis) : Outcome Layout :=
  match a.layout with
  | some l => .ok l
  | none => refuse (.compression .notCompressed)

def extractedEquation (a : Analysis) (equation k : Nat) : Outcome Nat := do
  (← a.requireLayout).extractedEquation equation k

def extractedVariable (a : Analysis) (unknown k : Nat) : Outcome Nat := do
  (← a.requireLayout).extractedVariable unknown k

variable {n : Nat}

def gap (a : Analysis) (i j : Nat) : Outcome Int := do
  let c ← lookAt a.c i
  let d ← lookAt a.d j
  fit (c - d)

def verify (a : Analysis) (m : Signature n) : Outcome Unit := do
  checkSizes n [a.c.size, a.d.size, a.columnOf.size, a.rowOf.size]
  m.entries.forM fun (i, j, x) => do
    if x < (← a.gap i j) then refuse (.infeasible i j)
  (a.columnOf.toList.zipIdx).forM fun (j, i) =>
    match m.cost? i j with
    | some x => do
      if (← a.gap i j) ≠ x then refuse (.infeasible i j)
    | none => refuse (.infeasible i j)

end Analysis

end SigmaMethod
