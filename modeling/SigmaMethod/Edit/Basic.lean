import SigmaMethod.Edit.Renumbering
import SigmaMethod.SortedMap

/-!
# Edits

One edit of a problem: equations and unknowns to delete, and new equations over unknowns that stay or come with the same
edit. Each command tests the edit against itself, so that an edit, once built, never names an unknown that it deletes.
Whether its indices exist is asked when it is applied.
-/

namespace SigmaMethod

structure NewRow where
  existing : SortedMap Nat Int
  added : SortedMap Nat Int

namespace NewRow

def empty : NewRow := ⟨.empty, .empty⟩

end NewRow

/-- Deleted equations and unknowns are kept increasing. -/
structure Edit where
  deletedEquations : List Nat
  deletedUnknowns : List Nat
  newRows : Array NewRow
  newUnknowns : Nat

namespace Edit

def empty : Edit := ⟨[], [], #[], 0⟩

def isEmpty (e : Edit) : Bool :=
  e.deletedEquations.isEmpty && e.deletedUnknowns.isEmpty && e.newRows.isEmpty && e.newUnknowns == 0

def references (e : Edit) (j : Nat) : Bool :=
  e.newRows.any fun r => (r.existing.find? j).isSome

def removeEquation (i : Nat) : Update Edit Unit := do
  let e ← get
  match insertNew i e.deletedEquations with
  | some deleted => set { e with deletedEquations := deleted }
  | none => throw (.refused (.invalidEdit (.equationDeletedTwice i)))

def removeUnknown (j : Nat) : Update Edit Unit := do
  let e ← get
  if e.references j then throw (.refused (.invalidEdit (.variableReferenced j)))
  match insertNew j e.deletedUnknowns with
  | some deleted => set { e with deletedUnknowns := deleted }
  | none => throw (.refused (.invalidEdit (.variableDeletedTwice j)))

def addEquation : Update Edit Nat := do
  let e ← get
  set { e with newRows := e.newRows.push .empty }
  return e.newRows.size

def addUnknown : Update Edit Nat := do
  let e ← get
  set { e with newUnknowns := e.newUnknowns + 1 }
  return e.newUnknowns

def modifyRow (k : Nat) (f : NewRow → NewRow) : Update Edit Unit := do
  let e ← get
  let k ← inBound .newEquation k e.newRows.size
  set { e with newRows := e.newRows.set k (f e.newRows[k]) }

def setExisting (k j : Nat) (derivative : Int) : Update Edit Unit := do
  let e ← get
  if j ∈ e.deletedUnknowns then throw (.refused (.invalidEdit (.variableDeletedHere j)))
  let _ ← derivativeCost k j derivative
  modifyRow k fun r => { r with existing := r.existing.put j derivative }

def setNew (k x : Nat) (derivative : Int) : Update Edit Unit := do
  let e ← get
  checkIndex .newVariable x e.newUnknowns
  let _ ← derivativeCost k x derivative
  modifyRow k fun r => { r with added := r.added.put x derivative }

def validate (e : Edit) (n : Nat) : Outcome Unit := do
  e.deletedEquations.forM fun i => checkIndex .equation i n
  e.deletedUnknowns.forM fun j => checkIndex .variable j n
  e.newRows.toList.forM fun r => r.existing.keys.forM fun j => do
    checkIndex .variable j n
    if j ∈ e.deletedUnknowns then refuse (.invalidEdit (.deletedReference j))
  let keptRows ← indexSub n e.deletedEquations.length
  let rows ← fitIndex (keptRows + e.newRows.size)
  let keptColumns ← indexSub n e.deletedUnknowns.length
  let columns ← fitIndex (keptColumns + e.newUnknowns)
  if rows ≠ columns then refuse (.invalidEdit (.notSquare rows columns))

end Edit

end SigmaMethod
