import SigmaMethod.Checked
import SigmaMethod.Lines
import SigmaMethod.SortedMap

/-!
# Signature matrices

A signature matrix has one row per equation and one column per variable. The entry at `(i, j)` is the cost of solving
equation `i` for variable `j`: the negated highest order at which the variable is differentiated there. An absent
variable has no entry.

Beside the rows the matrix keeps, for each column, a row with a smallest entry. Which one of several depends on the
order of the writes, and the solver's answers show it; that it is a smallest one is `cheapest_least`, part of the type.
It also counts its entries: a write where there is none counts one more, so that nothing has to be counted again; that
the number is right is `nnz_eq`. `get` is the view of a matrix, `get_put` the effect of a write.
-/

namespace SigmaMethod

variable {n : Nat}

abbrev Row (n : Nat) := SortedMap (Fin n) Int

/-! ## A smallest entry of a column -/

/-- What the column cache holds: a row whose entry in column `j` is smallest, none if the column has no entry. -/
def IsCheapest (rows : Vector (Row n) n) (j : Fin n) : Option (Fin n) → Prop
  | none => ∀ i : Fin n, (rows.get i).find? j = none
  | some i => ∃ x, (rows.get i).find? j = some x ∧ ∀ (k : Fin n) (y : Int), (rows.get k).find? j = some y → x ≤ y

/-- Keeps the better of a row found so far and row `i`; of two equal ones the earlier. -/
def keepCheaper (rows : Vector (Row n) n) (j : Fin n) (best : Option (Fin n × Int)) (i : Fin n) :
    Option (Fin n × Int) :=
  match (rows.get i).find? j, best with
  | none, _ => best
  | some x, none => some (i, x)
  | some x, some (_, y) => if x < y then some (i, x) else best

def firstCheapest (rows : Vector (Row n) n) (j : Fin n) : Option (Fin n) :=
  ((List.finRange n).foldl (keepCheaper rows j) none).map (·.1)

def BestOf (rows : Vector (Row n) n) (j : Fin n) (seen : List (Fin n)) :
    Option (Fin n × Int) → Prop
  | none => ∀ i ∈ seen, (rows.get i).find? j = none
  | some (i, x) => (rows.get i).find? j = some x ∧ ∀ k ∈ seen, ∀ y, (rows.get k).find? j = some y → x ≤ y

theorem bestOf_keepCheaper {rows : Vector (Row n) n} {j : Fin n} {seen : List (Fin n)}
    {best : Option (Fin n × Int)} (h : BestOf rows j seen best) (i : Fin n) :
    BestOf rows j (seen ++ [i]) (keepCheaper rows j best i) := by
  simp only [BestOf, keepCheaper] at *
  cases hi : (rows.get i).find? j with
  | none =>
    cases best with
    | none =>
      intro k hk
      rcases List.mem_append.mp hk with hk | hk
      · exact h k hk
      · rw [List.mem_singleton.mp hk]; exact hi
    | some b =>
      refine ⟨h.1, fun k hk y hy => ?_⟩
      rcases List.mem_append.mp hk with hk | hk
      · exact h.2 k hk y hy
      · rw [List.mem_singleton.mp hk, hi] at hy; cases hy
  | some x =>
    have self : ∀ k ∈ [i], ∀ y, (rows.get k).find? j = some y → x = y := fun k hk y hy => by
      rw [List.mem_singleton.mp hk, hi] at hy; exact Option.some.inj hy
    cases best with
    | none =>
      refine ⟨hi, fun k hk y hy => ?_⟩
      rcases List.mem_append.mp hk with hk | hk
      · rw [h k hk] at hy; cases hy
      · exact Int.le_of_eq (self k hk y hy)
    | some b =>
      by_cases hx : x < b.2
      · simp only [hx, ite_true]
        refine ⟨hi, fun k hk y hy => ?_⟩
        rcases List.mem_append.mp hk with hk | hk
        · have := h.2 k hk y hy
          omega
        · exact Int.le_of_eq (self k hk y hy)
      · simp only [hx, ite_false]
        refine ⟨h.1, fun k hk y hy => ?_⟩
        rcases List.mem_append.mp hk with hk | hk
        · exact h.2 k hk y hy
        · have := self k hk y hy
          omega

theorem bestOf_foldl {rows : Vector (Row n) n} {j : Fin n} (l : List (Fin n)) :
    ∀ {seen : List (Fin n)} {best : Option (Fin n × Int)}, BestOf rows j seen best →
      BestOf rows j (seen ++ l) (l.foldl (keepCheaper rows j) best) := by
  induction l with
  | nil => intro seen best h; simpa using h
  | cons i l ih =>
    intro seen best h
    have := ih (bestOf_keepCheaper h i)
    simpa using this

theorem firstCheapest_isCheapest (rows : Vector (Row n) n) (j : Fin n) : IsCheapest rows j (firstCheapest rows j) := by
  have h : BestOf rows j [] none := by simp [BestOf]
  have h := bestOf_foldl (List.finRange n) h
  unfold firstCheapest
  generalize (List.finRange n).foldl (keepCheaper rows j) none = best at h
  match best, h with
  | none, h => exact fun i => h i (by simp [List.mem_finRange])
  | some (i, x), h => exact ⟨x, h.1, fun k y hy => h.2 k (by simp [List.mem_finRange]) y hy⟩

/-! ## The matrix -/

structure Signature (n : Nat) where
  rows : Vector (Row n) n
  cheapest : Vector (Option (Fin n)) n
  nnz : Nat
  cheapest_least : ∀ j : Fin n, IsCheapest rows j (cheapest.get j)
  nnz_eq : nnz = (rows.toList.flatMap SortedMap.entries).length

namespace Signature

def get (m : Signature n) (i j : Fin n) : Option Int := (m.rows.get i).find? j

def empty (n : Nat) : Signature n where
  rows := Vector.replicate n .empty
  cheapest := Vector.replicate n none
  nnz := 0
  cheapest_least j := by simp [IsCheapest, Vector.get]
  nnz_eq := by simp [SortedMap.empty]

@[simp] theorem get_empty (i j : Fin n) : (empty n).get i j = none := by simp [get, empty, Vector.get]

def rowsAfter (m : Signature n) (i j : Fin n) (x : Int) : Vector (Row n) n :=
  m.rows.put i ((m.rows.get i).put j x)

theorem find?_rowsAfter (m : Signature n) (i j k l : Fin n) (x : Int) :
    ((m.rowsAfter i j x).get k).find? l = if k = i ∧ l = j then some x else m.get k l := by
  unfold rowsAfter get
  rw [Vector.get_put]
  by_cases hk : k = i
  · subst hk
    simp [SortedMap.find?_put]
  · simp [hk]

theorem length_rowsAfter (m : Signature n) (i j : Fin n) (x : Int) :
    ((m.rowsAfter i j x).toList.flatMap SortedMap.entries).length =
      if (m.get i j).isSome then m.nnz else m.nnz + 1 := by
  have hlength := m.rows.length_flatMap_put SortedMap.entries i ((m.rows.get i).put j x)
  have hsize := (m.rows.get i).size_put j x
  have hnnz := m.nnz_eq
  unfold SortedMap.size at hsize
  change _ = if (m.get i j).isSome then _ else _ at hsize
  unfold rowsAfter
  split at hsize
  · rename_i hsome
    rw [if_pos hsome]
    omega
  · rename_i hnone
    rw [if_neg hnone]
    omega

/-- The cached row of column `j` after `x` has been written at `(i, j)`. A row already cached stays unless its own entry
went up or the written one is strictly smaller. -/
def cheapestAfter (m : Signature n) (i j : Fin n) (x : Int) : Option (Fin n) :=
  match m.cheapest.get j with
  | none => some i
  | some r =>
    if r = i then
      if (m.get i j).any (· < x) then firstCheapest (m.rowsAfter i j x) j else some r
    else if (m.get r j).all (x < ·) then some i
    else some r

theorem cheapestAfter_isCheapest (m : Signature n) (i j : Fin n) (x : Int) :
    IsCheapest (m.rowsAfter i j x) j (m.cheapestAfter i j x) := by
  have hj := m.cheapest_least j
  unfold cheapestAfter
  split
  · rename_i hc
    rw [hc] at hj
    refine ⟨x, by rw [find?_rowsAfter]; simp, fun k y hy => ?_⟩
    rw [find?_rowsAfter] at hy
    by_cases hk : k = i
    · simp [hk] at hy; omega
    · have : m.get k j = none := hj k
      simp [hk, this] at hy
  · rename_i r hc
    rw [hc] at hj
    obtain ⟨b, hb, hleast⟩ := hj
    change m.get r j = some b at hb
    replace hleast : ∀ (k : Fin n) (y : Int), m.get k j = some y → b ≤ y := hleast
    split
    · rename_i hr
      subst hr
      split
      · exact firstCheapest_isCheapest _ _
      · rename_i hx
        simp [hb] at hx
        refine ⟨x, by rw [find?_rowsAfter]; simp, fun k y hy => ?_⟩
        rw [find?_rowsAfter] at hy
        by_cases hk : k = r
        · simp [hk] at hy; omega
        · simp [hk] at hy
          have := hleast k y hy
          omega
    · rename_i hr
      split
      · rename_i hx
        simp [hb] at hx
        refine ⟨x, by rw [find?_rowsAfter]; simp, fun k y hy => ?_⟩
        rw [find?_rowsAfter] at hy
        by_cases hk : k = i
        · simp [hk] at hy; omega
        · simp [hk] at hy
          have := hleast k y hy
          omega
      · rename_i hx
        simp [hb] at hx
        refine ⟨b, by rw [find?_rowsAfter]; simp [hr, hb], fun k y hy => ?_⟩
        rw [find?_rowsAfter] at hy
        by_cases hk : k = i
        · simp [hk] at hy; omega
        · simp [hk] at hy
          exact hleast k y hy

def put (m : Signature n) (i j : Fin n) (x : Int) : Signature n where
  rows := m.rowsAfter i j x
  cheapest := m.cheapest.put j (m.cheapestAfter i j x)
  nnz := if (m.get i j).isSome then m.nnz else m.nnz + 1
  cheapest_least k := by
    rw [Vector.get_put]
    by_cases hk : k = j
    · subst hk
      simpa using m.cheapestAfter_isCheapest i k x
    · have := m.cheapest_least k
      simp only [hk, ite_false]
      generalize m.cheapest.get k = r at this
      match r, this with
      | none, h => intro i'; rw [find?_rowsAfter]; simp [hk]; exact h i'
      | some r, ⟨b, hb, hleast⟩ =>
        refine ⟨b, by rw [find?_rowsAfter]; simp [hk]; exact hb, fun i' y hy => ?_⟩
        rw [find?_rowsAfter] at hy
        simp [hk] at hy
        exact hleast i' y hy
  nnz_eq := (m.length_rowsAfter i j x).symm

/-- **A write changes one position.** -/
theorem get_put (m : Signature n) (i j k l : Fin n) (x : Int) :
    (m.put i j x).get k l = if k = i ∧ l = j then some x else m.get k l :=
  m.find?_rowsAfter i j k l x

/-! ## Entries -/

def entries (m : Signature n) : List (Fin n × Fin n × Int) :=
  (List.finRange n).flatMap fun i => (m.rows.get i).entries.map fun (j, x) => (i, j, x)

theorem mem_entries_iff {m : Signature n} {i j : Fin n} {x : Int} : (i, j, x) ∈ m.entries ↔ m.get i j = some x := by
  simp only [entries, get, SortedMap.find?_eq_some_iff, List.mem_flatMap, List.mem_map]
  constructor
  · rintro ⟨_, _, ⟨_, _⟩, h, e⟩
    cases e
    exact h
  · exact fun h => ⟨i, List.mem_finRange i, (j, x), h, rfl⟩

def hasEmptyLine (m : Signature n) : Bool :=
  m.rows.toList.any SortedMap.isEmpty || m.cheapest.toList.any Option.isNone

end Signature

end SigmaMethod
