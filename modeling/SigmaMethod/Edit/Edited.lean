import SigmaMethod.Edit.Basic
import SigmaMethod.Offsets.Analyse

/-!
# Edited problems

A problem after an edit, numbered anew: what survives keeps its order, what is new follows. Pairs of the old matching
that survive stay matched, and the old offsets serve as their potentials, so that a new analysis only has to match what
the edit touched.
-/

namespace SigmaMethod

structure Edited where
  dimension : Nat
  matrix : Signature dimension
  start : PartialMatching
  rows : Renumbering
  columns : Renumbering
  newEquations : Nat
  newUnknowns : Nat

namespace Edited

variable {n : Nat}

/-- The old offsets of the surviving variables, negated, as potentials of their columns. -/
def carryColumns (old : Analysis) (n : Nat) (columns : Renumbering) (p : PartialMatching) : Outcome PartialMatching :=
  (List.range n).foldlM (fun p j => do
    match ← columns.rename j with
    | none => return p
    | some k =>
      let d ← lookAt old.d j
      let x ← fit (-d)
      return { p with v := ← writeAt p.v k x }) p

/-- Carries one surviving row over: its offset, its entries in surviving columns, and its column if that survives too.
-/
def carryRow {dimension : Nat} (m : Signature n) (old : Analysis) (columns : Renumbering)
    (i k : Nat) (t : Signature dimension) (p : PartialMatching) :
    Outcome (Signature dimension × PartialMatching) := do
  let c ← lookAt old.c i
  let u ← writeAt p.u k c
  let t ← (m.row i).foldlM (fun t (j, x) => do
    match ← columns.rename j with
    | none => return t
    | some l => (Signature.insert k l x).result t) t
  let j ← lookAt old.columnOf i
  match ← columns.rename j with
  | none => return (t, { p with u })
  | some l =>
    let columnOf ← writeAt p.columnOf k (some l)
    let rowOf ← writeAt p.rowOf l (some k)
    return (t, { p with u, columnOf, rowOf })

def carryRows {dimension : Nat} (m : Signature n) (old : Analysis) (rows columns : Renumbering)
    (t : Signature dimension) (p : PartialMatching) :
    Outcome (Signature dimension × PartialMatching) :=
  (List.range n).foldlM (fun (t, p) i => do
    match ← rows.rename i with
    | none => return (t, p)
    | some k => carryRow m old columns i k t p) (t, p)

def writeRow {dimension : Nat} (columns : Renumbering) (firstColumn k : Nat) (r : NewRow)
    (t : Signature dimension) : Outcome (Signature dimension) := do
  let t ← r.existing.entries.foldlM (fun t (j, derivative) => do
    match ← columns.rename j with
    | none => refuse (.invalidEdit (.notSurviving j))
    | some l => (Signature.setDerivative k l derivative).result t) t
  r.added.entries.foldlM (fun t (x, derivative) => do
    let l ← fitIndex (firstColumn + x)
    (Signature.setDerivative k l derivative).result t) t

def ofEdit (m : Signature n) (old : Analysis) (e : Edit) : Outcome Edited := do
  if old.dimension ≠ n then refuse (.dimensionMismatch n old.dimension)
  e.validate n
  let rows ← Renumbering.ofDeleted n e.deletedEquations
  let columns ← Renumbering.ofDeleted n e.deletedUnknowns
  let firstRow ← rows.surviving
  let firstColumn ← columns.surviving
  let dimension := firstRow + e.newRows.size
  let p ← carryColumns old n columns (.empty dimension)
  let (t, p) ← carryRows m old rows columns (.empty dimension) p
  let t ← (e.newRows.toList.zipIdx).foldlM (fun t (r, k) => writeRow columns firstColumn (firstRow + k) r t) t
  return ⟨dimension, t, p, rows, columns, e.newRows.size, e.newUnknowns⟩

def oldRow (e : Edited) (i : Nat) : Outcome (Option Nat) := do
  checkIndex .equation i e.rows.bound
  e.rows.rename i

def oldColumn (e : Edited) (j : Nat) : Outcome (Option Nat) := do
  checkIndex .variable j e.columns.bound
  e.columns.rename j

def newRow (e : Edited) (k : Nat) : Outcome Nat := do
  checkIndex .newEquation k e.newEquations
  fitIndex ((← e.rows.surviving) + k)

def newColumn (e : Edited) (x : Nat) : Outcome Nat := do
  checkIndex .newVariable x e.newUnknowns
  fitIndex ((← e.columns.surviving) + x)

def analyse (settings : Settings) (e : Edited) : Outcome Analysis := do
  e.matrix.analysisOf settings (← e.matrix.solveDelta settings e.start)

end Edited

end SigmaMethod
