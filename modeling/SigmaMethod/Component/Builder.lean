import SigmaMethod.Matching.Solver

/-!
# Components

A component is a block of `p + 1` equations over `p` private variables and `q` public ones that occurs many times in a
problem. Its columns are the private variables first and the public ones after them. The equations can be solved for the
private variables and one public variable, the exit; `build` finds out, for each public variable, at what least cost, if
at all.
-/

namespace SigmaMethod

/-- A component as it is being described: the costs of each equation, by column. -/
structure ComponentBuilder where
  publics : Nat
  privates : Nat
  costs : SortedMap Nat (SortedMap Nat Int)

/-- A finished component: its entries, and for each public variable the column of each equation when that variable is
the exit, with the cost of the matching. -/
structure Component where
  publics : Nat
  privates : Nat
  entries : List (Nat × Nat × Int)
  matchings : Array (Option (List Nat))
  exitCosts : Array (Option Int)
deriving DecidableEq

namespace ComponentBuilder

def empty (publics privates : Nat) : ComponentBuilder := ⟨publics, privates, .empty⟩

def put (b : ComponentBuilder) (equation column : Nat) (cost : Int) : ComponentBuilder :=
  let row := (b.costs.find? equation).getD .empty
  { b with costs := b.costs.put equation (row.put column cost) }

def checkEquation (b : ComponentBuilder) (equation : Nat) : Outcome Unit := do
  checkIndex .componentEquation equation (← fitIndex (b.privates + 1))

def setPublic (equation unknown : Nat) (derivative : Int) : Update ComponentBuilder Unit := do
  let b ← get
  b.checkEquation equation
  checkIndex .publicVariable unknown b.publics
  let column ← fitIndex (b.privates + unknown)
  let cost ← derivativeCost equation column derivative
  set (b.put equation column cost)

def setPrivate (equation unknown : Nat) (derivative : Int) : Update ComponentBuilder Unit := do
  let b ← get
  b.checkEquation equation
  checkIndex .privateVariable unknown b.privates
  let cost ← derivativeCost equation unknown derivative
  set (b.put equation unknown cost)

def entries (b : ComponentBuilder) : List (Nat × Nat × Int) :=
  b.costs.entries.flatMap fun (i, row) => row.entries.map fun (j, x) => (i, j, x)

/-- The positions that tie every public variable but `exit` to a row of its own choice, below the equations of the
component. -/
def pins (b : ComponentBuilder) (exit : Nat) : List (Nat × Nat) :=
  (List.range' (b.privates + 1) (b.publics - 1)).flatMap fun i =>
    ((List.range b.publics).filter fun k => k ≠ exit).map fun k => (i, b.privates + k)

/-- The square problem in which only the public variable `exit` is left to the component. -/
def sealedAt (b : ComponentBuilder) (n exit : Nat) : Outcome (Signature n) := do
  let m ← b.entries.foldlM (fun m (i, j, x) => (Signature.insert i j x).result m) (.empty n)
  (b.pins exit).foldlM (fun m (i, j) => (Signature.insert i j 0).result m) m

def exitMatching (b : ComponentBuilder) (n exit : Nat) : Outcome (Option (List Nat × Int)) := do
  let m ← b.sealedAt n exit
  match m.solve {} with
  | .ok s => return some (s.columnOf.toList.take (b.privates + 1), s.cost)
  | .error (.refused r) => if r.isStructural then return none else refuse r
  | .error e => .error e

def build (b : ComponentBuilder) : Outcome Component := do
  if b.publics = 0 then refuse (.compression .noPublics)
  let n ← fitIndex (b.privates + b.publics)
  let exits ← (List.range b.publics).mapM (b.exitMatching n)
  if exits.all Option.isNone then refuse (.compression .singularForEveryPublic)
  return {
    publics := b.publics
    privates := b.privates
    entries := b.entries
    matchings := (exits.map fun e => e.map (·.1)).toArray
    exitCosts := (exits.map fun e => e.map (·.2)).toArray
  }

end ComponentBuilder

namespace Component

def equations (c : Component) : Nat := c.privates + 1

def exitCost (c : Component) (k : Nat) : Outcome (Option Int) := do
  checkIndex .publicVariable k c.publics
  lookAt c.exitCosts k

def matching (c : Component) (k : Nat) : Outcome (Option (List Nat)) := do
  checkIndex .publicVariable k c.publics
  lookAt c.matchings k

end Component

end SigmaMethod
