/-!
# Refusals

The answers "this cannot be done" of the structural analysis, as causes: an index outside its space, a singular system,
an edit, a matching or a compression that does not fit. `Refusal.message` is the only place where a cause becomes text.
-/

namespace SigmaMethod

inductive IndexSpace where
  | equation
  | variable
  | newEquation
  | newVariable
  | componentEquation
  | privateVariable
  | publicVariable
  | componentInstance
deriving DecidableEq

def IndexSpace.name : IndexSpace → String
  | .equation => "equation"
  | .variable => "variable"
  | .newEquation => "new equation"
  | .newVariable => "new variable"
  | .componentEquation => "component equation"
  | .privateVariable => "private variable"
  | .publicVariable => "public variable"
  | .componentInstance => "instance"

inductive EditFault where
  | equationDeletedTwice (equation : Nat)
  | variableDeletedTwice (unknown : Nat)
  | variableReferenced (unknown : Nat)
  | variableDeletedHere (unknown : Nat)
  | deletedReference (unknown : Nat)
  | notSquare (equations unknowns : Nat)
  | notSurviving (unknown : Nat)
  | stated (text : String)
deriving DecidableEq

def EditFault.message : EditFault → String
  | .equationDeletedTwice i => s!"equation {i} is deleted twice"
  | .variableDeletedTwice j => s!"variable {j} is deleted twice"
  | .variableReferenced j => s!"variable {j} is referenced by a new equation"
  | .variableDeletedHere j => s!"variable {j} is deleted by the same change"
  | .deletedReference j => s!"new equation references deleted variable {j}"
  | .notSquare rows cols => s!"change leaves {rows} equations for {cols} unknowns"
  | .notSurviving j => s!"variable {j} does not survive"
  | .stated text => text

inductive MatchingFault where
  | rowNotReturned (row column : Nat)
  | columnNotReturned (column row : Nat)
  | noIncidence (row column : Nat)
  | notSettled (sweeps : Nat)
  | stated (text : String)
deriving DecidableEq

def MatchingFault.message : MatchingFault → String
  | .rowNotReturned i j =>
    s!"row {i} is matched to column {j}, but column {j} is not matched to row {i}"
  | .columnNotReturned j i =>
    s!"column {j} is matched to row {i}, but row {i} is not matched to column {j}"
  | .noIncidence i j => s!"row {i} is matched to column {j} without an incidence"
  | .notSettled sweeps =>
    s!"offsets did not settle after {sweeps} sweeps; the matching is not optimal"
  | .stated text => text

inductive CompressionFault where
  | noPublics
  | singularForEveryPublic
  | notCompressed
  | sharedSurrogate (row : Nat)
  | outsidePublics (surrogate placement column first last : Nat)
  | cannotSolve (placement exit : Nat)
  | rowsFree
  | columnsFree
  | absentEntry (row column : Nat)
  | stated (text : String)
deriving DecidableEq

def CompressionFault.message : CompressionFault → String
  | .noPublics => "component has no public variables"
  | .singularForEveryPublic => "component is singular for every public variable"
  | .notCompressed => "result was not produced by compressed analysis"
  | .sharedSurrogate i => s!"row {i} is the surrogate of more than one instance"
  | .outsidePublics s p j first last =>
    s!"surrogate row {s} of instance {p} is matched to column {j}, " ++ s!"outside its publics {first}..{last}"
  | .cannotSolve p k => s!"instance {p} cannot solve for public {k}"
  | .rowsFree => "inflated matching leaves rows free"
  | .columnsFree => "inflated matching leaves columns free"
  | .absentEntry i j => s!"inflated matching uses absent entry ({i}, {j})"
  | .stated text => text

/-- A property of the input that rules an answer out; asking again gives the same one. -/
inductive Refusal where
  | invalidIndex (space : IndexSpace) (index bound : Nat)
  | singular (dimension rank : Nat) (unmatched : List Nat)
  | invalidEdit (fault : EditFault)
  | negativeDerivative (equation unknown : Nat) (derivative : Int)
  | dimensionMismatch (expected got : Nat)
  | inconsistentMatching (fault : MatchingFault)
  | compression (fault : CompressionFault)
  | infeasible (equation unknown : Nat)
deriving DecidableEq

namespace Refusal

def message : Refusal → String
  | invalidIndex space index bound => "Invalid " ++ space.name ++ s!" index {index} (bound {bound})"
  | singular dimension rank unmatched =>
    s!"Structurally singular system: structural rank {rank} < dimension {dimension} " ++
      "(unmatched equations: [" ++ ", ".intercalate (unmatched.map toString) ++ "])"
  | invalidEdit fault => "Invalid structural change: " ++ fault.message
  | negativeDerivative i j der =>
    s!"Invalid derivative order {der} at equation {i}, variable {j}"
  | dimensionMismatch expected got => s!"Dimension mismatch: expected {expected}, got {got}"
  | inconsistentMatching fault => "Inconsistent assignment: " ++ fault.message
  | compression fault => "Compression error: " ++ fault.message
  | infeasible i j => s!"Offsets violate dual feasibility at equation {i}, variable {j}"

/-- Singularity says something about the model; all else says that a caller misused it. -/
def isStructural : Refusal → Bool
  | singular .. => true
  | _ => false

end Refusal

end SigmaMethod
