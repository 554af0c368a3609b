import SigmaMethod.Component.Builder
import SigmaMethod.Offsets.Analyse

/-!
# Placed components

In an outer problem a placed component is a single surrogate row: its entries are the exit costs of the component, in
the columns of its public variables. A perfect matching of the outer problem then chooses an exit for each placed
component, and `expand` writes the components out: the other outer rows first, then for each component its equations,
over outer columns and fresh private ones. The matching grows along, and with it the analysis.
-/

namespace SigmaMethod

structure Placement where
  component : Component
  firstPublic : Nat
  surrogate : Nat

abbrev Placements := Array Placement

structure Expanded where
  dimension : Nat
  matrix : Signature dimension
  columnOf : Array Nat
  rowOf : Array Nat
  cost : Int
  layout : Layout

variable {n : Nat}

namespace Placements

def setPublicParts (ps : Placements) (k : Nat) : Update (Signature n) Unit := do
  checkIndex .componentInstance k ps.size
  let p ← (lookAt ps k : Outcome _)
  let q := p.component.publics
  checkIndex .equation p.surrogate n
  let last ← fitIndex (p.firstPublic + q)
  if n < last then throw (.refused (.invalidIndex .variable (last - 1) n))
  (List.range q).forM fun e => do
    match ← (p.component.exitCost e : Outcome _) with
    | some cost => Signature.insert p.surrogate (p.firstPublic + e) cost
    | none => pure ()

/-- Refuses surrogate rows outside the outer problem, and rows that stand in for two components. The rows are given with
the placements already accepted. -/
def checkSurrogates (n : Nat) : (seen : List Nat) → List Placement → Outcome Unit
  | _, [] => .ok ()
  | seen, p :: rest => do
    checkIndex .equation p.surrogate n
    if p.surrogate ∈ seen then refuse (.compression (.sharedSurrogate p.surrogate))
    checkSurrogates n (p.surrogate :: seen) rest

end Placements

/-! ## Writing components out -/

structure Expansion (dimension : Nat) where
  matrix : Signature dimension
  columnOf : Array (Option Nat)
  rowOf : Array (Option Nat)
  nextRow : Nat
  nextColumn : Nat
  layout : Layout

namespace Expansion

variable {dimension : Nat}

def start (dimension outer : Nat) : Expansion dimension where
  matrix := .empty dimension
  columnOf := Array.replicate dimension none
  rowOf := Array.replicate dimension none
  nextRow := 0
  nextColumn := outer
  layout := ⟨#[], #[], #[], Array.replicate outer none⟩

def pair (x : Expansion dimension) (i j : Nat) : Outcome (Expansion dimension) := do
  let columnOf ← writeAt x.columnOf i (some j)
  let rowOf ← writeAt x.rowOf j (some i)
  return { x with columnOf, rowOf }

def insert (x : Expansion dimension) (i j : Nat) (cost : Int) : Outcome (Expansion dimension) := do
  return { x with matrix := ← (Signature.insert i j cost).result x.matrix }

def copyRow (outer : Signature n) (s : Matching) (surrogates : List Nat)
    (x : Expansion dimension) (i : Nat) : Outcome (Expansion dimension) :=
  if i ∈ surrogates then .ok x
  else do
    let row := x.nextRow
    let x ← (outer.row i).foldlM (fun x (j, cost) => x.insert row j cost) x
    let j ← lookAt s.columnOf i
    let x ← x.pair row j
    let outerRows ← writeAt x.layout.outerRows i (some row)
    return { x with nextRow := row + 1, layout := { x.layout with outerRows } }

def exitOf (s : Matching) (k : Nat) (p : Placement) : Outcome Nat := do
  let j ← lookAt s.columnOf p.surrogate
  if p.firstPublic ≤ j && j - p.firstPublic < p.component.publics then
    return j - p.firstPublic
  else
    let last ← fitIndex (p.firstPublic + p.component.publics)
    refuse (.compression (.outsidePublics p.surrogate k j p.firstPublic last))

def columnAt (p : Placement) (firstPrivate j : Nat) : Outcome Nat :=
  if j < p.component.privates then fitIndex (firstPrivate + j)
  else fitIndex (p.firstPublic + (j - p.component.privates))

def addComponent (s : Matching) (x : Expansion dimension) (p : Placement) (k : Nat) :
    Outcome (Expansion dimension) := do
  let exit ← exitOf s k p
  match ← p.component.matching exit with
  | none => refuse (.compression (.cannotSolve k exit))
  | some internal =>
    let row := x.nextRow
    let column := x.nextColumn
    let x ← p.component.entries.foldlM (fun x (i, j, cost) => do
      x.insert (row + i) (← columnAt p column j) cost) x
    let x ← internal.zipIdx.foldlM (fun x (j, i) => do
      x.pair (row + i) (← columnAt p column j)) x
    return { x with
      nextRow := row + p.component.equations
      nextColumn := column + p.component.privates
      layout := { x.layout with
        componentRows := x.layout.componentRows.push row
        componentColumns := x.layout.componentColumns.push column
        privates := x.layout.privates.push p.component.privates } }

def allPartners (fault : CompressionFault) (xs : Array (Option Nat)) : Outcome (List Nat) :=
  xs.toList.mapM fun x =>
    match x with
    | some k => .ok k
    | none => refuse (.compression fault)

def finish (x : Expansion dimension) : Outcome Expanded := do
  let columns ← allPartners .rowsFree x.columnOf
  let rows ← allPartners .columnsFree x.rowOf
  let cost ← columns.zipIdx.foldlM (fun total (j, i) => do
    match x.matrix.cost? i j with
    | some y => fit (total + y)
    | none => refuse (.compression (.absentEntry i j))) 0
  return ⟨dimension, x.matrix, columns.toArray, rows.toArray, cost, x.layout⟩

end Expansion

def Placements.expand (ps : Placements) (outer : Signature n) (s : Matching) : Outcome Expanded := do
  if s.columnOf.size ≠ n then refuse (.dimensionMismatch n s.columnOf.size)
  checkSurrogates n [] ps.toList
  let extra ← ps.toList.foldlM (fun total p => fitIndex (total + p.component.privates)) 0
  let dimension ← fitIndex (n + extra)
  let surrogates := ps.toList.map (·.surrogate)
  let x ← (List.range n).foldlM (Expansion.copyRow outer s surrogates)
    (Expansion.start dimension n)
  let x ← ps.toList.zipIdx.foldlM (fun x (p, k) => x.addComponent s p k) x
  x.finish

/-- The analysis of an outer problem with its placed components written out. Only the outer problem is matched anew. -/
def Placements.analyse (settings : Settings) (ps : Placements) (outer : Signature n) : Outcome Analysis := do
  let s ← outer.solve settings
  let x ← ps.expand outer s
  let a ← x.matrix.analysisOf settings ⟨x.cost, x.columnOf, x.rowOf, #[], #[]⟩
  return { a with layout := some x.layout }

end SigmaMethod
