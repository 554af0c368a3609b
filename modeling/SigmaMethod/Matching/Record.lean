import SigmaMethod.Matching.Search
import SigmaMethod.Signature.Query

/-!
# Matchings as records

What goes in and out of the solver: a `Matching` with its potentials, and a `PartialMatching` that a caller may have
edited in any way. `validate` says whether the latter is a matching on the entries of a matrix; only then does `start`
read it as one.
-/

namespace SigmaMethod

structure Matching where
  cost : Int
  columnOf : Array Nat
  rowOf : Array Nat
  u : Array Int
  v : Array Int
deriving DecidableEq

/-- A matching with gaps, and potentials that mean something where it has none. -/
structure PartialMatching where
  u : Array Int
  v : Array Int
  columnOf : Array (Option Nat)
  rowOf : Array (Option Nat)
deriving DecidableEq

def checkSizes (expected : Nat) (sizes : List Nat) : Outcome Unit :=
  sizes.forM fun size =>
    if size = expected then .ok () else refuse (.dimensionMismatch expected size)

namespace PartialMatching

def empty (n : Nat) : PartialMatching :=
  ⟨Array.replicate n 0, Array.replicate n 0, Array.replicate n none, Array.replicate n none⟩

def ofMatching (s : Matching) : PartialMatching :=
  ⟨s.u, s.v, s.columnOf.map some, s.rowOf.map some⟩

def dimension (p : PartialMatching) : Nat := p.columnOf.size

def unassignRow (i : Nat) : Update PartialMatching Unit := do
  let p ← get
  checkIndex .equation i p.dimension
  let rowOf ← match ← (lookAt p.columnOf i : Outcome _) with
    | some j => (writeAt p.rowOf j none : Outcome _)
    | none => pure p.rowOf
  let columnOf ← (writeAt p.columnOf i none : Outcome _)
  set { p with columnOf, rowOf }

def unassignColumn (j : Nat) : Update PartialMatching Unit := do
  let p ← get
  checkIndex .variable j p.dimension
  let columnOf ← match ← (lookAt p.rowOf j : Outcome _) with
    | some i => (writeAt p.columnOf i none : Outcome _)
    | none => pure p.columnOf
  let rowOf ← (writeAt p.rowOf j none : Outcome _)
  set { p with columnOf, rowOf }

def freeRows (p : PartialMatching) : List Nat :=
  (List.range p.dimension).filter fun i => p.columnOf[i]? = some none

variable {n : Nat}

def checkRow (p : PartialMatching) (m : Signature n) (i : Nat) : Outcome Unit :=
  match p.columnOf[i]? with
  | some (some j) => do
    checkIndex .variable j n
    if p.rowOf[j]? ≠ some (some i) then refuse (.inconsistentMatching (.rowNotReturned i j))
    if (m.cost? i j).isNone then refuse (.inconsistentMatching (.noIncidence i j))
  | _ => .ok ()

def checkColumn (p : PartialMatching) (n j : Nat) : Outcome Unit :=
  match p.rowOf[j]? with
  | some (some i) => do
    checkIndex .equation i n
    if p.columnOf[i]? ≠ some (some j) then
      refuse (.inconsistentMatching (.columnNotReturned j i))
  | _ => .ok ()

def validate (p : PartialMatching) (m : Signature n) : Outcome Unit := do
  checkSizes n [p.u.size, p.v.size, p.columnOf.size, p.rowOf.size]
  (List.range n).forM (p.checkRow m)
  (List.range n).forM (p.checkColumn n)

def below (n : Nat) (k : Option Nat) : Option (Fin n) :=
  k.bind fun k => if h : k < n then some ⟨k, h⟩ else none

def start (p : PartialMatching) (n : Nat) : DualAssignment n where
  v := Vector.ofFn fun j => p.v.getD j 0
  columnOf := Vector.ofFn fun i => below n (p.columnOf.getD i none)
  rowOf := Vector.ofFn fun j => below n (p.rowOf.getD j none)

end PartialMatching

end SigmaMethod
