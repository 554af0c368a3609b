import SigmaMethod.Matching.Record
import SigmaMethod.Matching.Reduction
import SigmaMethod.Settings

/-!
# Minimum-cost matchings

`solve` matches all rows of a signature matrix at least cost, with potentials that prove it: no entry costs less than
the potentials of its row and column, and a matched one costs just as much. `solveDelta` does the same from a partial
matching whose pairs are already optimal among themselves. Where there is no perfect matching both report the structural
rank.
-/

namespace SigmaMethod

variable {n : Nat}

namespace DualAssignment

def augmentAll (m : Signature n) : List (Fin n) → DualAssignment n → Scratch n → Outcome (DualAssignment n)
  | [], a, _ => .ok a
  | i :: rest, a, s => do
    let t ← a.augment m i s
    if t.matched then augmentAll m rest t.assignment t.scratch else refuse m.singularity

def partners (m : Signature n) (xs : Vector (Option (Fin n)) n) : Outcome (List (Fin n)) :=
  xs.toList.mapM fun x =>
    match x with
    | some k => .ok k
    | none => refuse m.singularity

structure Tally where
  u : Array Int
  cost : Int

/-- Adds row `i` with column `j`: the potential of the row is what its entry leaves. -/
def Tally.add (m : Signature n) (v : Vector Int n) (t : Tally) (i j : Fin n) : Outcome Tally := do
  let x ← m.pairCost i j
  let u ← fit (x - v.get j)
  let cost ← fit (t.cost + x)
  return ⟨t.u.push u, cost⟩

def checkPotentials (m : Signature n) (u : Array Int) (v : Vector Int n) : Outcome Unit :=
  m.entries.forM fun (i, j, x) => do
    let y ← fit (u.getD i 0 + v.get j)
    if x < y then refuse (.infeasible i j)

def finish (settings : Settings) (m : Signature n) (a : DualAssignment n) : Outcome Matching := do
  let columns ← partners m a.columnOf
  let rows ← partners m a.rowOf
  let t ← ((List.finRange n).zip columns).foldlM
    (fun t (i, j) => Tally.add m a.v t i j) ⟨#[], 0⟩
  if settings.verify then checkPotentials m t.u a.v
  return {
    cost := t.cost
    columnOf := (columns.map Fin.val).toArray
    rowOf := (rows.map Fin.val).toArray
    u := t.u
    v := a.v.toArray
  }

def seeds (m : Signature n) (a : DualAssignment n) (u : Vector Int n) : Outcome (Vector (Option Int) n) :=
  m.entries.foldlM (fun seeds (i, j, x) =>
    if (a.rowOf.get j).isSome then pure seeds
    else do
      let h ← fit (x - u.get i)
      return seeds.put j (leastOf (seeds.get j) h)) (Vector.replicate n none)

/-- Columns without a row get their seed for a potential; a column without an entry has none. -/
def seed (m : Signature n) (a : DualAssignment n) (u : Vector Int n) : Outcome (DualAssignment n) := do
  let seeds ← a.seeds m u
  (List.finRange n).foldlM (fun a j =>
    if (a.rowOf.get j).isSome then pure a
    else
      match seeds.get j with
      | some x => pure (a.setPotential j x)
      | none => refuse m.singularity) a

end DualAssignment

def Signature.solve (settings : Settings) (m : Signature n) : Outcome Matching := do
  if m.hasEmptyLine then refuse m.singularity
  let (a, free) ← reduction m settings.sweeps
  let a ← a.augmentAll m free (.empty n)
  a.finish settings m

/-- Completes a partial matching to a perfect one. It is of least cost if the given pairs are optimal among themselves
and the given potentials prove it. -/
def Signature.solveDelta (settings : Settings) (m : Signature n) (p : PartialMatching) : Outcome Matching := do
  p.validate m
  let a ← (p.start n).seed m (Vector.ofFn fun i => p.u.getD i 0)
  let a ← a.augmentAll m a.freeRows (.empty n)
  a.finish settings m

end SigmaMethod
