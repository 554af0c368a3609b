import SigmaMethod.Lines

/-!
# The frontier of a search

A priority queue of the columns that a search has reached and not yet scanned: a heap with four children per slot, and
for each column the slot that holds it, so that its key can be lowered in place. Keys order by distance and then by the
sequence number of the discovery.
-/

namespace SigmaMethod

structure Key where
  dist : Int
  seq : Nat
deriving DecidableEq

namespace Key

/-- Smaller distance first, at equal distance the earlier discovery. -/
def Before (a b : Key) : Prop := a.dist < b.dist ∨ a.dist = b.dist ∧ a.seq < b.seq

instance (a b : Key) : Decidable (a.Before b) := inferInstanceAs (Decidable (_ ∨ _))

end Key

structure Frontier (n : Nat) where
  slots : Array (Key × Fin n)
  place : Vector (Option Nat) n

namespace Frontier

variable {n : Nat}

def empty (n : Nat) : Frontier n := ⟨#[], Vector.replicate n none⟩

def exchange (f : Frontier n) (a b : Nat) : Frontier n :=
  if ha : a < f.slots.size then
    if hb : b < f.slots.size then
      { slots := f.slots.swap a b
        place := (f.place.put f.slots[b].2 (some a)).put f.slots[a].2 (some b) }
    else f
  else f

def less (f : Frontier n) (a b : Nat) : Bool :=
  match f.slots[a]?, f.slots[b]? with
  | some (x, _), some (y, _) => decide (x.Before y)
  | _, _ => false

def siftUp : (fuel pos : Nat) → Frontier n → Frontier n
  | 0, _, f => f
  | fuel + 1, pos, f =>
    if pos = 0 then f
    else
      let parent := (pos - 1) / 4
      if f.less pos parent then siftUp fuel parent (f.exchange pos parent) else f

def bestChild (f : Frontier n) (pos : Nat) : Option Nat :=
  let first := 4 * pos + 1
  (List.range' first (min 4 (f.slots.size - first))).foldl (fun best c =>
    match best with
    | none => some c
    | some b => if f.less c b then some c else some b) none

def siftDown : (fuel pos : Nat) → Frontier n → Frontier n
  | 0, _, f => f
  | fuel + 1, pos, f =>
    match f.bestChild pos with
    | none => f
    | some c => if f.less c pos then siftDown fuel c (f.exchange pos c) else f

def pushOrDecrease (f : Frontier n) (j : Fin n) (key : Key) : Bool × Frontier n :=
  match f.place.get j with
  | none =>
    let pos := f.slots.size
    (true, siftUp pos pos ⟨f.slots.push (key, j), f.place.put j (some pos)⟩)
  | some pos =>
    if h : pos < f.slots.size then
      if key.Before f.slots[pos].1 then
        (true, siftUp pos pos { f with slots := f.slots.set pos (key, f.slots[pos].2) })
      else (false, f)
    else (false, f)

def pop (f : Frontier n) : Option (Fin n × Key × Frontier n) :=
  let swapped := f.exchange 0 (f.slots.size - 1)
  match swapped.slots.back? with
  | none => none
  | some (key, j) =>
    let rest : Frontier n := ⟨swapped.slots.pop, swapped.place.put j none⟩
    some (j, key, siftDown rest.slots.size 0 rest)

def clear (f : Frontier n) : Frontier n :=
  ⟨#[], f.slots.foldl (fun place slot => place.put slot.2 none) f.place⟩

end Frontier

end SigmaMethod
