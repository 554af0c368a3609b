import SigmaMethod.Matching.Solver
import SigmaMethod.Offsets.Analysis
import SigmaMethod.Offsets.Least

/-!
# Structural analysis

The whole method: a perfect matching of least cost, and the least offsets it gives rise to.
-/

namespace SigmaMethod

variable {n : Nat}

def Signature.analysisOf (settings : Settings) (m : Signature n) (s : Matching) : Outcome Analysis := do
  let settled ← m.leastOffsets s.columnOf
  let a : Analysis := {
    c := settled.offsets.c.toArray
    d := settled.offsets.d.toArray
    columnOf := s.columnOf
    rowOf := s.rowOf
    cost := s.cost
    layout := none
  }
  if settings.verify then a.verify m
  return a

def Signature.analyse (settings : Settings) (m : Signature n) : Outcome Analysis := do
  m.analysisOf settings (← m.solve settings)

end SigmaMethod
