/-!
# Sorted maps

Finite maps as lists of `(key, value)` pairs by increasing key. `find?` is the view of a map: `find?_put` says what
writing does to it, and `find?_eq_some_iff` ties it to the entries.
-/

namespace SigmaMethod

class Ranked (κ : Type) where
  rank : κ → Nat
  rank_injective : ∀ {a b : κ}, rank a = rank b → a = b

instance : Ranked Nat := ⟨id, id⟩

instance {n : Nat} : Ranked (Fin n) := ⟨Fin.val, Fin.ext⟩

open Ranked (rank)

variable {κ α : Type} [Ranked κ]

structure SortedMap (κ α : Type) [Ranked κ] where
  entries : List (κ × α)
  increasing : entries.Pairwise (fun a b => rank a.1 < rank b.1)

namespace SortedMap

/-! ## Lists by increasing key -/

def read (k : κ) : List (κ × α) → Option α
  | [] => none
  | (l, y) :: rest => if rank k = rank l then some y else read k rest

def write (k : κ) (x : α) : List (κ × α) → List (κ × α)
  | [] => [(k, x)]
  | (l, y) :: rest =>
    if rank k < rank l then (k, x) :: (l, y) :: rest
    else if rank k = rank l then (k, x) :: rest
    else (l, y) :: write k x rest

theorem eq_or_mem_of_mem_write {k : κ} {x : α} {p : κ × α} : ∀ {l : List (κ × α)}, p ∈ write k x l → p = (k, x) ∨ p ∈ l
  | [], h => by simpa [write] using h
  | (l, y) :: rest, h => by
    unfold write at h
    split at h
    · simpa using h
    · split at h
      · exact (List.mem_cons.mp h).imp_right (List.mem_cons_of_mem _)
      · rcases List.mem_cons.mp h with h | h
        · exact .inr (h ▸ List.mem_cons_self)
        · exact (eq_or_mem_of_mem_write h).imp_right (List.mem_cons_of_mem _)

theorem write_pairwise {k : κ} {x : α} : ∀ {l : List (κ × α)},
    l.Pairwise (fun a b => rank a.1 < rank b.1) → (write k x l).Pairwise (fun a b => rank a.1 < rank b.1)
  | [], _ => by simp [write]
  | (l, y) :: rest, h => by
    obtain ⟨hl, hr⟩ := List.pairwise_cons.mp h
    unfold write
    split
    · rename_i hkl
      refine List.pairwise_cons.mpr ⟨fun p hp => ?_, h⟩
      rcases List.mem_cons.mp hp with rfl | hp
      · exact hkl
      · exact Nat.lt_trans hkl (hl p hp)
    · split
      · rename_i hkl
        exact List.pairwise_cons.mpr ⟨fun p hp => hkl ▸ hl p hp, hr⟩
      · refine List.pairwise_cons.mpr ⟨fun p hp => ?_, write_pairwise hr⟩
        rcases eq_or_mem_of_mem_write hp with rfl | hp
        · dsimp only
          omega
        · exact hl p hp

theorem read_write {k l : κ} {x : α} : ∀ {list : List (κ × α)},
    read l (write k x list) = if rank l = rank k then some x else read l list
  | [] => rfl
  | (m, y) :: rest => by
    unfold write
    split
    · rfl
    · split
      · rename_i hkm
        by_cases hl : rank l = rank k <;> simp_all [read]
      · simp only [read, read_write]
        by_cases hl : rank l = rank m
        · simp [hl]
          omega
        · simp [hl]

theorem read_eq_some_iff {k : κ} {x : α} : ∀ {l : List (κ × α)},
    l.Pairwise (fun a b => rank a.1 < rank b.1) → (read k l = some x ↔ (k, x) ∈ l)
  | [], _ => by simp [read]
  | (m, y) :: rest, h => by
    obtain ⟨hm, hr⟩ := List.pairwise_cons.mp h
    by_cases hk : rank k = rank m
    · obtain rfl := Ranked.rank_injective hk
      have hout : (k, x) ∉ rest := fun hx => absurd (hm _ hx) (Nat.lt_irrefl _)
      simp [read, hout, eq_comm]
    · have : k ≠ m := fun e => hk (e ▸ rfl)
      simp [read, hk, this, read_eq_some_iff hr]

theorem length_write {k : κ} {x : α} : ∀ {l : List (κ × α)}, l.Pairwise (fun a b => rank a.1 < rank b.1) →
    (write k x l).length = if (read k l).isSome then l.length else l.length + 1
  | [], _ => rfl
  | (l, y) :: rest, h => by
    obtain ⟨hl, hr⟩ := List.pairwise_cons.mp h
    unfold write read
    by_cases hkl : rank k = rank l
    · simp [hkl]
    · rw [if_neg hkl, if_neg hkl]
      split
      · -- the key goes in front, so it is none of the later ones
        rename_i hlt
        have hnone : read k rest = none := Option.eq_none_iff_forall_ne_some.mpr fun z hz =>
          absurd (hl _ ((read_eq_some_iff hr).mp hz)) (Nat.lt_asymm hlt)
        simp [hnone]
      · rw [List.length_cons, length_write hr, List.length_cons]
        split <;> rfl

/-! ## Maps -/

def empty : SortedMap κ α := ⟨[], .nil⟩

def find? (m : SortedMap κ α) (k : κ) : Option α := read k m.entries

def put (m : SortedMap κ α) (k : κ) (x : α) : SortedMap κ α :=
  ⟨write k x m.entries, write_pairwise m.increasing⟩

def size (m : SortedMap κ α) : Nat := m.entries.length

def isEmpty (m : SortedMap κ α) : Bool := m.entries.isEmpty

def keys (m : SortedMap κ α) : List κ := m.entries.map (·.1)

@[simp] theorem find?_empty (k : κ) : (empty : SortedMap κ α).find? k = none := rfl

theorem find?_put [DecidableEq κ] (m : SortedMap κ α) (k l : κ) (x : α) :
    (m.put k x).find? l = if l = k then some x else m.find? l := by
  have : rank l = rank k ↔ l = k := ⟨Ranked.rank_injective, fun e => e ▸ rfl⟩
  simp only [put, find?, read_write, this]

theorem size_put (m : SortedMap κ α) (k : κ) (x : α) :
    (m.put k x).size = if (m.find? k).isSome then m.size else m.size + 1 :=
  length_write m.increasing

theorem find?_eq_some_iff {m : SortedMap κ α} {k : κ} {x : α} : m.find? k = some x ↔ (k, x) ∈ m.entries :=
  read_eq_some_iff m.increasing

end SortedMap

end SigmaMethod
