import SigmaMethod.Signature.Query

/-!
# Least offsets

Given a perfect matching of least cost, the offsets `c` of the equations and `d` of the variables are the least natural
numbers with `c i - d j ≤ cost i j` on every entry and equality on the matched ones. They are approached from below: `d`
is raised until it covers every entry, then `c` follows on the matched ones, until `c` stands still. On a matching that
costs more than it need, `c` never does.
-/

namespace SigmaMethod

variable {n : Nat}

structure Pair (n : Nat) where
  row : Fin n
  column : Fin n
  cost : Int

def Signature.matchedPair (m : Signature n) (columnOf : Array Nat) (i : Fin n) :
    Outcome (Pair n) :=
  let j := columnOf.getD i n
  if h : j < n then
    match m.get i ⟨j, h⟩ with
    | some x => .ok ⟨i, ⟨j, h⟩, x⟩
    | none => refuse (.inconsistentMatching (.noIncidence i j))
  else refuse (.inconsistentMatching (.noIncidence i j))

structure Offsets (n : Nat) where
  c : Vector Int n
  d : Vector Int n

namespace Offsets

def zero (n : Nat) : Offsets n := ⟨Vector.replicate n 0, Vector.replicate n 0⟩

def raise (m : Signature n) (o : Offsets n) : Outcome (Offsets n) := do
  let d ← m.entries.foldlM (fun (d : Vector Int n) (i, j, x) => do
    let y ← fit (o.c.get i - x)
    return d.put j (max (d.get j) y)) o.d
  return { o with d }

def follow (pairs : List (Pair n)) (o : Offsets n) : Outcome (Offsets n) := do
  let c ← pairs.foldlM (fun (c : Vector Int n) p => do
    let y ← fit (o.d.get p.column + p.cost)
    return c.put p.row y) o.c
  return { o with c }

end Offsets

structure Settled (n : Nat) where
  offsets : Offsets n
  sweeps : Nat

/-- Sweeps until the offsets of the equations stand still. A matching of least cost needs `n + 1` sweeps at most. -/
def settle (m : Signature n) (pairs : List (Pair n)) : (fuel sweep : Nat) → Offsets n → Outcome (Settled n)
  | 0, _, _ => refuse (.inconsistentMatching (.notSettled (2 * n + 2)))
  | fuel + 1, sweep, o => do
    let raised ← o.raise m
    let next ← raised.follow pairs
    if next.c = o.c then return ⟨next, sweep⟩
    else settle m pairs fuel (sweep + 1) next

def Signature.leastOffsets (m : Signature n) (columnOf : Array Nat) : Outcome (Settled n) := do
  if columnOf.size ≠ n then refuse (.dimensionMismatch n columnOf.size)
  let pairs ← (List.finRange n).mapM (m.matchedPair columnOf)
  settle m pairs (2 * n + 2) 1 (.zero n)

end SigmaMethod
