import SigmaMethod.Matching.Search

/-!
# Dual assignments

What every phase of the solver keeps. An assignment is consistent if rows and columns name each other, at entries; it is
least in its rows if no entry of a matched row has a smaller reduced cost than the matched one. The second is the dual
half of optimality: the potential of a matched row is then what its entry leaves.
-/

namespace SigmaMethod

variable {n : Nat}

theorem Signature.mem_row_iff {m : Signature n} {i j : Fin n} {x : Int} :
    (j, x) ∈ (m.rows.get i).entries ↔ m.get i j = some x :=
  SortedMap.find?_eq_some_iff.symm

theorem Signature.pairCost_eq {m : Signature n} {i j : Fin n} {x : Int} (h : m.get i j = some x) :
    m.pairCost i j = .ok x := by
  simp only [pairCost, h]

namespace DualAssignment

variable {m : Signature n} {a : DualAssignment n} {i j k r : Fin n}

structure Consistent (m : Signature n) (a : DualAssignment n) : Prop where
  agree : ∀ i j, a.columnOf.get i = some j ↔ a.rowOf.get j = some i
  entry : ∀ i j, a.columnOf.get i = some j → ∃ x, m.get i j = some x

def LeastInRow (m : Signature n) (a : DualAssignment n) (i : Fin n) : Prop :=
  ∀ j x k y, a.columnOf.get i = some j → m.get i j = some x → m.get i k = some y → x - a.v.get j ≤ y - a.v.get k

def LeastInRows (m : Signature n) (a : DualAssignment n) : Prop := ∀ i, a.LeastInRow m i

theorem Consistent.row_unique (h : a.Consistent m) {i i' : Fin n} (hi : a.columnOf.get i = some j)
    (hi' : a.columnOf.get i' = some j) : i = i' :=
  Option.some.inj (((h.agree i j).mp hi).symm.trans ((h.agree i' j).mp hi'))

theorem Consistent.column_unique (h : a.Consistent m) {j j' : Fin n} (hj : a.rowOf.get j = some i)
    (hj' : a.rowOf.get j' = some i) : j = j' :=
  Option.some.inj (((h.agree i j).mpr hj).symm.trans ((h.agree i j').mpr hj'))

theorem Consistent.entry_of_rowOf (h : a.Consistent m) (hj : a.rowOf.get j = some i) : ∃ x, m.get i j = some x :=
  h.entry i j ((h.agree i j).mpr hj)

/-! ## Writing -/

@[simp] theorem pair_v : (a.pair i j).v = a.v := rfl

@[simp] theorem setPotential_columnOf {x : Int} : (a.setPotential j x).columnOf = a.columnOf := rfl

theorem pair_columnOf (k : Fin n) : (a.pair i j).columnOf.get k = if k = i then some j else a.columnOf.get k :=
  Vector.get_put ..

theorem pair_rowOf (k : Fin n) : (a.pair i j).rowOf.get k = if k = j then some i else a.rowOf.get k :=
  Vector.get_put ..

theorem setPotential_v {x : Int} (k : Fin n) : (a.setPotential j x).v.get k = if k = j then x else a.v.get k :=
  Vector.get_put ..

theorem Consistent.setPotential (h : a.Consistent m) {x : Int} : (a.setPotential j x).Consistent m :=
  ⟨h.agree, h.entry⟩

theorem Consistent.pair (h : a.Consistent m) (hi : a.columnOf.get i = none) (hj : a.rowOf.get j = none)
    {x : Int} (hx : m.get i j = some x) : (a.pair i j).Consistent m where
  agree r k := by
    have hrk := h.agree r k
    rw [pair_columnOf, pair_rowOf]
    by_cases hr : r = i
    · by_cases hk : k = j
      · simp [hr, hk]
      · simp only [hr, hk, ite_true, ite_false, Option.some.injEq, eq_comm (a := j), false_iff]
        rw [← h.agree, hi]
        exact fun h => nomatch h
    · by_cases hk : k = j
      · simp only [hr, hk, ite_true, ite_false, Option.some.injEq, eq_comm (a := i), iff_false]
        rw [h.agree, hj]
        exact fun h => nomatch h
      · simpa [hr, hk] using hrk
  entry r k hrk := by
    rw [pair_columnOf] at hrk
    split at hrk
    · cases hrk
      exact ⟨x, by rw [‹r = i›, hx]⟩
    · exact h.entry r k hrk

def release (a : DualAssignment n) (r j : Fin n) : DualAssignment n :=
  { a with columnOf := a.columnOf.put r none, rowOf := a.rowOf.put j none }

theorem release_columnOf (k : Fin n) : (a.release r j).columnOf.get k = if k = r then none else a.columnOf.get k :=
  Vector.get_put ..

theorem release_rowOf (k : Fin n) : (a.release r j).rowOf.get k = if k = j then none else a.rowOf.get k :=
  Vector.get_put ..

theorem Consistent.release (h : a.Consistent m) (hr : a.columnOf.get r = some j) : (a.release r j).Consistent m where
  agree i k := by
    rw [release_columnOf, release_rowOf]
    by_cases hi : i = r
    · by_cases hk : k = j
      · simp [hi, hk]
      · simp only [hi, hk, ite_true, ite_false, reduceCtorEq, false_iff]
        rw [← h.agree, hr]
        simpa [eq_comm] using hk
    · by_cases hk : k = j
      · simp only [hi, hk, ite_true, ite_false, reduceCtorEq, iff_false]
        exact fun hij => hi (h.row_unique hij hr)
      · simpa [hi, hk] using h.agree i k
  entry i k hik := by
    rw [release_columnOf] at hik
    split at hik
    · cases hik
    · exact h.entry i k hik

/-! ## Matched entries that are least -/

/-- Lowering the potential of a column keeps the matched entry of every other row least. -/
theorem LeastInRow.lower (h : a.LeastInRow m i) {x : Int} (hx : x ≤ a.v.get k) (hik : a.columnOf.get i ≠ some k) :
    (a.setPotential k x).LeastInRow m i := by
  intro j y l z hij hy hz
  have hjk : j ≠ k := fun e => hik (e ▸ hij)
  have hle := h j y l z hij hy hz
  rw [setPotential_v, setPotential_v, if_neg hjk]
  split
  · rename_i hl
    subst hl
    omega
  · exact hle

theorem LeastInRows.pair (h : a.LeastInRows m)
    (hleast : ∀ x k y, m.get i j = some x → m.get i k = some y → x - a.v.get j ≤ y - a.v.get k) :
    (a.pair i j).LeastInRows m := by
  intro r l x k y hrl hx hy
  rw [pair_columnOf] at hrl
  split at hrl
  · cases hrl
    subst ‹r = i›
    exact hleast x k y hx hy
  · exact h r l x k y hrl hx hy

/-! ## The rows without a column -/

structure FreeAre (a : DualAssignment n) (rows : List (Fin n)) : Prop where
  nodup : rows.Nodup
  mem_iff : ∀ i, i ∈ rows ↔ a.columnOf.get i = none

theorem FreeAre.perm {rows rows' : List (Fin n)} (h : a.FreeAre rows) (hp : rows.Perm rows') : a.FreeAre rows' where
  nodup := hp.nodup_iff.mp h.nodup
  mem_iff i := hp.mem_iff.symm.trans (h.mem_iff i)

theorem FreeAre.pair {rows : List (Fin n)} (h : a.FreeAre (i :: rows)) : (a.pair i j).FreeAre rows where
  nodup := (List.nodup_cons.mp h.nodup).2
  mem_iff r := by
    have hr := h.mem_iff r
    rw [List.mem_cons] at hr
    rw [pair_columnOf]
    by_cases hri : r = i
    · simpa [hri] using (List.nodup_cons.mp h.nodup).1
    · simpa [hri] using hr

theorem FreeAre.release {rows : List (Fin n)} (h : a.FreeAre rows) (hr : a.columnOf.get r = some j) :
    (a.release r j).FreeAre (r :: rows) where
  nodup := by
    refine List.nodup_cons.mpr ⟨fun hmem => ?_, h.nodup⟩
    rw [(h.mem_iff r).mp hmem] at hr
    cases hr
  mem_iff i := by
    rw [release_columnOf, List.mem_cons, h.mem_iff i]
    by_cases hi : i = r <;> simp [hi]

theorem freeAre_freeRows (a : DualAssignment n) : a.FreeAre a.freeRows where
  nodup := (List.nodup_finRange n).filter _
  mem_iff i := by simp [freeRows]

end DualAssignment

end SigmaMethod
