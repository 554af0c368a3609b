import SigmaMethod.Signature.Basic

/-!
# Structural rank

The structural rank of a signature matrix is the largest number of entries no two of which share a row or a column. A
greedy walk pairs most lines, then a breadth-first search from each line that is left looks for an alternating path to
another one, from the rows first and then from the columns. The rows without a partner at the end are the unmatched
equations of a singularity report.
-/

namespace SigmaMethod

variable {n : Nat}

inductive Line (n : Nat) where
  | row (i : Fin n)
  | column (j : Fin n)

/-- The lines that cross each line at an entry, the last ones first. -/
structure Crossings (n : Nat) where
  ofRow : Vector (List (Fin n)) n
  ofColumn : Vector (List (Fin n)) n

namespace Crossings

def swap (c : Crossings n) : Crossings n := ⟨c.ofColumn, c.ofRow⟩

def ofLine (c : Crossings n) : Line n → List (Line n)
  | .row i => (c.ofRow.get i).map .column
  | .column j => (c.ofColumn.get j).map .row

end Crossings

def Signature.crossings (m : Signature n) : Crossings n where
  ofRow := m.rows.map fun r => (r.entries.map (·.1)).reverse
  ofColumn := Vector.ofFn fun j => (List.finRange n).reverse.filter fun i => (m.get i j).isSome

structure Pairing (n : Nat) where
  ofRow : Vector (Option (Fin n)) n
  ofColumn : Vector (Option (Fin n)) n

namespace Pairing

def empty (n : Nat) : Pairing n := ⟨Vector.replicate n none, Vector.replicate n none⟩

def swap (p : Pairing n) : Pairing n := ⟨p.ofColumn, p.ofRow⟩

def pair (p : Pairing n) (i j : Fin n) : Pairing n :=
  ⟨p.ofRow.put i (some j), p.ofColumn.put j (some i)⟩

def pairLines (p : Pairing n) : Line n → Line n → Pairing n
  | .row i, .column j => p.pair i j
  | .column j, .row i => p.pair i j
  | _, _ => p

def size (p : Pairing n) : Nat := (p.ofRow.toList.filter Option.isSome).length

def freeRows (p : Pairing n) : List (Fin n) := (List.finRange n).filter fun i => (p.ofRow.get i).isNone

end Pairing

/-! ## The greedy walk -/

structure Walk (n : Nat) where
  pairing : Pairing n
  rowSeen : Vector Bool n
  columnSeen : Vector Bool n

namespace Walk

def empty (n : Nat) : Walk n := ⟨.empty n, Vector.replicate n false, Vector.replicate n false⟩

def seen (w : Walk n) : Line n → Bool
  | .row i => w.rowSeen.get i
  | .column j => w.columnSeen.get j

def visit (w : Walk n) : Line n → Walk n
  | .row i => { w with rowSeen := w.rowSeen.put i true }
  | .column j => { w with columnSeen := w.columnSeen.put j true }

/-- Goes on from `line` over lines not seen before; `single` says that `line` has no partner yet, and it then gets the
next one. -/
def follow (c : Crossings n) : (fuel : Nat) → Line n → (single : Bool) → Walk n → Walk n
  | 0, _, _, w => w
  | fuel + 1, line, single, w =>
    let w := w.visit line
    match (c.ofLine line).find? fun next => !w.seen next with
    | none => w
    | some next =>
      if single then follow c fuel next false { w with pairing := w.pairing.pairLines line next }
      else follow c fuel next true w

/-- Starts a walk at a line nobody has seen. A walk sees each of the `2 * n` lines once at most. -/
def start (c : Crossings n) (w : Walk n) (line : Line n) : Walk n :=
  if w.seen line then w else follow c (2 * n) line true w

end Walk

def greedyPairing (c : Crossings n) : Pairing n :=
  let w := ((List.finRange n).map Line.row).foldl (Walk.start c) (.empty n)
  (((List.finRange n).map Line.column).foldl (Walk.start c) w).pairing

/-! ## Alternating paths -/

inductive Origin (n : Nat) where
  | root
  | via (row : Fin n)

structure Reach (n : Nat) where
  origin : Vector (Option (Origin n)) n
  queue : List (Fin n)

inductive Found (n : Nat) where
  | free (column : Fin n)
  | more (reach : Reach n)

def Reach.expand (p : Pairing n) (x : Fin n) : List (Fin n) → Reach n → Found n
  | [], r => .more r
  | y :: rest, r =>
    match p.ofColumn.get y with
    | none => .free y
    | some i =>
      match r.origin.get i with
      | some _ => expand p x rest r
      | none => expand p x rest ⟨r.origin.put i (some (.via x)), r.queue ++ [i]⟩

def Pairing.exchange (origin : Vector (Option (Origin n)) n) : (fuel : Nat) → (x y : Fin n) → Pairing n → Pairing n
  | 0, _, _, p => p
  | fuel + 1, x, y, p =>
    let before := p.ofRow.get x
    let p := p.pair x y
    match origin.get x, before with
    | some (.via w), some z => exchange origin fuel w z p
    | _, _ => p

/-- Breadth-first search; each row enters the queue once at most. -/
def Reach.search (c : Crossings n) (p : Pairing n) : (fuel : Nat) → Reach n → Pairing n
  | 0, _ => p
  | fuel + 1, r =>
    match r.queue with
    | [] => p
    | x :: queue =>
      match expand p x (c.ofRow.get x) { r with queue } with
      | .free y => p.exchange r.origin n x y
      | .more r => search c p fuel r

def Pairing.augment (c : Crossings n) (p : Pairing n) (i : Fin n) : Pairing n :=
  match p.ofRow.get i with
  | some _ => p
  | none => Reach.search c p n ⟨(Vector.replicate n none).put i (some .root), [i]⟩

def maximumPairing (c : Crossings n) : Pairing n :=
  let rows := (List.finRange n).foldl (Pairing.augment c) (greedyPairing c)
  ((List.finRange n).foldl (Pairing.augment c.swap) rows.swap).swap

/-! ## The report -/

/-- The structural rank, and the equations that one largest pairing leaves out. -/
structure RankReport where
  rank : Nat
  unmatched : List Nat
deriving DecidableEq

namespace Signature

def rankReport (m : Signature n) : RankReport :=
  let p := maximumPairing m.crossings
  ⟨p.size, p.freeRows.map Fin.val⟩

def singularity (m : Signature n) : Refusal :=
  let report := m.rankReport
  .singular n report.rank report.unmatched

end Signature

end SigmaMethod
