import SigmaMethod.Matching.Frontier
import SigmaMethod.Signature.Basic

/-!
# Shortest augmenting paths

A dual assignment is a matching with potentials on the columns; the potential of a matched row is what its entry leaves.
`augment` gives one more row a column: it searches the columns by distance in reduced costs from the row, stops at the
first one without a row, lowers the potentials of the columns scanned before it by what they were nearer, and shifts the
pairs along the path. If no free column can be reached, nothing changes.

The labels of a search stay in its `Scratch`, which the next search starts by clearing.
-/

namespace SigmaMethod

variable {n : Nat}

structure DualAssignment (n : Nat) where
  v : Vector Int n
  columnOf : Vector (Option (Fin n)) n
  rowOf : Vector (Option (Fin n)) n

namespace DualAssignment

def zero (n : Nat) : DualAssignment n :=
  ⟨Vector.replicate n 0, Vector.replicate n none, Vector.replicate n none⟩

def pair (a : DualAssignment n) (i j : Fin n) : DualAssignment n :=
  { a with columnOf := a.columnOf.put i (some j), rowOf := a.rowOf.put j (some i) }

def setPotential (a : DualAssignment n) (j : Fin n) (x : Int) : DualAssignment n :=
  { a with v := a.v.put j x }

def freeRows (a : DualAssignment n) : List (Fin n) :=
  (List.finRange n).filter fun i => (a.columnOf.get i).isNone

end DualAssignment

def Signature.pairCost (m : Signature n) (i j : Fin n) : Outcome Int :=
  match m.get i j with
  | some x => .ok x
  | none => refuse (.inconsistentMatching (.noIncidence i j))

structure Label (n : Nat) where
  dist : Int
  seq : Nat
  pred : Fin n

/-- What a search writes down. `touched` are the columns with a label, so that clearing costs no more than the search
did. -/
structure Scratch (n : Nat) where
  frontier : Frontier n
  label : Vector (Option (Label n)) n
  scanned : Vector Bool n
  touched : Array (Fin n)

namespace Scratch

def empty (n : Nat) : Scratch n :=
  ⟨.empty n, Vector.replicate n none, Vector.replicate n false, #[]⟩

def clear (s : Scratch n) : Scratch n where
  frontier := s.frontier.clear
  label := s.touched.foldl (fun label (j : Fin n) => label.put j none) s.label
  scanned := s.touched.foldl (fun scanned (j : Fin n) => scanned.put j false) s.scanned
  touched := #[]

def enter (s : Scratch n) (j : Fin n) (l : Label n) : Scratch n :=
  { s with
    label := s.label.put j (some l)
    frontier := (s.frontier.pushOrDecrease j ⟨l.dist, l.seq⟩).2 }

/-- Offers column `j` a distance; it keeps the sequence number of its discovery. -/
def relax (s : Scratch n) (j : Fin n) (dist : Int) (pred : Fin n) : Scratch n :=
  match s.label.get j with
  | none => { s with touched := s.touched.push j }.enter j ⟨dist, s.touched.size, pred⟩
  | some l => if dist < l.dist then s.enter j ⟨dist, l.seq, pred⟩ else s

end Scratch

def Signature.reach (m : Signature n) (v : Vector Int n) (start : Fin n) (s : Scratch n) : Outcome (Scratch n) :=
  (m.rows.get start).entries.foldlM (fun s (j, x) => do
    let dist ← fit (x - v.get j)
    return s.relax j dist start) s

/-- Offers the columns of row `i` the distance over it. The row was reached over its own column, at distance `dist`,
where its entry leaves `h`. -/
def Signature.scanRow (m : Signature n) (v : Vector Int n) (i : Fin n) (dist h : Int)
    (s : Scratch n) : Outcome (Scratch n) :=
  (m.rows.get i).entries.foldlM (fun s (k, x) =>
    if s.scanned.get k then pure s
    else do
      let reached ← fit (dist + x)
      let reached ← fit (reached - v.get k)
      let reached ← fit (reached - h)
      return s.relax k reached i) s

/-- The outcome of a search: the free column nearest to the start with its distance, if any can be reached, and the
columns scanned before it. -/
structure Reached (n : Nat) where
  target : Option (Fin n × Int)
  ready : List (Fin n)
  scratch : Scratch n

/-- Scans the columns of the frontier, nearest first. Each column is scanned once at most. -/
def DualAssignment.search (m : Signature n) (a : DualAssignment n) :
    (fuel : Nat) → List (Fin n) → Scratch n → Outcome (Reached n)
  | 0, ready, s => .ok ⟨none, ready, s⟩
  | fuel + 1, ready, s =>
    match s.frontier.pop with
    | none => .ok ⟨none, ready, s⟩
    | some (j, key, frontier) =>
      let s := { s with frontier, scanned := s.scanned.put j true }
      match a.rowOf.get j with
      | none => .ok ⟨some (j, key.dist), ready, s⟩
      | some i => do
        let x ← m.pairCost i j
        let h ← fit (x - a.v.get j)
        let s ← m.scanRow a.v i key.dist h s
        search m a fuel (j :: ready) s

/-- Lowers the potentials of the scanned columns by what they are nearer than the target. -/
def DualAssignment.lower (label : Vector (Option (Label n)) n) (least : Int) :
    List (Fin n) → DualAssignment n → Outcome (DualAssignment n)
  | [], a => .ok a
  | k :: rest, a =>
    match label.get k with
    | none => lower label least rest a
    | some l => do
      let gap ← fit (l.dist - least)
      let x ← fit (a.v.get k + gap)
      lower label least rest (a.setPotential k x)

/-- Shifts the pairs along the path that ends in column `j`: each row on it takes the column after it. -/
def DualAssignment.shift (label : Vector (Option (Label n)) n) (start : Fin n) :
    (fuel : Nat) → Fin n → DualAssignment n → DualAssignment n
  | 0, _, a => a
  | fuel + 1, j, a =>
    match label.get j with
    | none => a
    | some l =>
      let before := a.columnOf.get l.pred
      let a := a.pair l.pred j
      match before with
      | some k => if l.pred = start then a else shift label start fuel k a
      | none => a

structure Attempt (n : Nat) where
  matched : Bool
  assignment : DualAssignment n
  scratch : Scratch n

def DualAssignment.augment (m : Signature n) (a : DualAssignment n) (start : Fin n)
    (s : Scratch n) : Outcome (Attempt n) := do
  let s ← m.reach a.v start s.clear
  let r ← a.search m (n + 1) [] s
  match r.target with
  | none => return ⟨false, a, r.scratch⟩
  | some (j, dist) =>
    let a ← a.lower r.scratch.label dist r.ready
    return ⟨true, a.shift r.scratch.label start n j, r.scratch⟩

end SigmaMethod
