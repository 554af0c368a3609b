import Mathlib.Algebra.BigOperators.Group.List.Lemmas
import Mathlib.Algebra.GroupWithZero.Nat
import Mathlib.Data.Fintype.Prod
import SigmaMethod.Proofs.Signature.Accepted

/-!
# Calls that write

A matrix that any calls have led to reads as the log of their writes: at each position stands what was stored there
last. Calls may fail, and `extend` may fail on its way; only what they have stored counts. The listings of a matrix, its
compact form and its cached rows all say the same as `cost?`.
-/

namespace SigmaMethod

namespace Signature

variable {n : Nat} {m : Signature n} {i j k l : Nat} {x : Int}

/-! ## The log -/

inductive Call where
  | insert (equation unknown : Nat) (cost : Int)
  | setDerivative (equation unknown : Nat) (derivative : Int)
  | append (equation unknown : Nat) (derivative : Int)
  | extend (incidences : List Incidence)

def Call.update : Call → Update (Signature n) Unit
  | .insert i j x => Signature.insert i j x
  | .setDerivative i j derivative => Signature.setDerivative i j derivative
  | .append i j derivative => Signature.append i j derivative
  | .extend es => Signature.extend es

/-- What the matrix has a place for; `append` takes only what comes after all entries. -/
def Call.Accepted (m : Signature n) : Call → Prop
  | .insert i j _ => i < n ∧ j < n
  | .setDerivative i j derivative => Incident n i j derivative
  | .append i j derivative =>
    Incident n i j derivative ∧ ∀ k l x, m.cost? k l = some x → k < i ∨ k = i ∧ l < j
  | .extend es => ∀ e ∈ es, Incident n e.equation e.unknown e.derivative

theorem Call.update_eq_ok_iff (call : Call) : (call.update.apply m).1 = .ok () ↔ call.Accepted m := by
  cases call with
  | insert => exact insert_eq_ok_iff
  | setDerivative => exact setDerivative_eq_ok_iff
  | append => exact append_eq_ok_iff
  | extend => exact extend_eq_ok_iff

def written (u : Update (Signature n) Unit) (m : Signature n) (i j : Nat) (x : Int) : List (Nat × Nat × Int) :=
  match u.apply m with
  | (.ok _, _) => [(i, j, x)]
  | (.error _, _) => []

/-- The writes of `extend`, up to the first incidence that is refused. -/
def extendWrites : List Incidence → Signature n → List (Nat × Nat × Int)
  | [], _ => []
  | e :: rest, m =>
    match (setDerivative e.equation e.unknown e.derivative).apply m with
    | (.ok _, t) => (e.equation, e.unknown, -e.derivative) :: extendWrites rest t
    | (.error _, _) => []

def Call.writes (m : Signature n) : Call → List (Nat × Nat × Int)
  | .insert i j x => written (Signature.insert i j x) m i j x
  | .setDerivative i j derivative => written (Signature.setDerivative i j derivative) m i j (-derivative)
  | .append i j derivative => written (Signature.append i j derivative) m i j (-derivative)
  | .extend es => extendWrites es m

def Call.run (state : Signature n × List (Nat × Nat × Int)) (call : Call) : Signature n × List (Nat × Nat × Int) :=
  ((call.update.apply state.1).2, state.2 ++ call.writes state.1)

def replay (n : Nat) (calls : List Call) : Signature n × List (Nat × Nat × Int) := calls.foldl Call.run (empty n, [])

def lastWritten (log : List (Nat × Nat × Int)) (i j : Nat) : Option Int :=
  ((log.filter fun e => e.1 = i ∧ e.2.1 = j).getLast?).map (·.2.2)

def Holds (m : Signature n) (log : List (Nat × Nat × Int)) : Prop := ∀ i j, m.cost? i j = lastWritten log i j

variable {u : Update (Signature n) Unit} {log : List (Nat × Nat × Int)}

theorem lastWritten_concat (log : List (Nat × Nat × Int)) (k l : Nat) (x : Int) (i j : Nat) :
    lastWritten (log ++ [(k, l, x)]) i j = if i = k ∧ j = l then some x else lastWritten log i j := by
  unfold lastWritten
  rw [List.filter_append]
  by_cases h : i = k ∧ j = l
  · obtain ⟨rfl, rfl⟩ := h
    simp
  · have hother : ¬ (k = i ∧ l = j) := fun h' => h ⟨h'.1.symm, h'.2.symm⟩
    simp [h, hother]

theorem lastWritten_ne_none_iff : lastWritten log i j ≠ none ↔ (i, j) ∈ log.map fun e => (e.1, e.2.1) := by
  unfold lastWritten
  simp

theorem Holds.stores (h : m.Holds log) (hu : Stores u m i j x) : (u.apply m).2.Holds (log ++ written u m i j x) := by
  unfold Stores at hu
  unfold written
  split at hu
  · rename_i t ht
    rw [ht]
    intro k l
    rw [lastWritten_concat, hu k l, h k l]
  · rename_i t ht
    rw [ht, List.append_nil]
    exact hu.symm ▸ h

theorem Holds.extend (h : m.Holds log) (es : List Incidence) :
    ((extend es).apply m).2.Holds (log ++ extendWrites es m) := by
  induction es generalizing m log with
  | nil =>
    rw [extendWrites, List.append_nil]
    exact h
  | cons e es ih =>
    have hfirst := h.stores (setDerivative_stores m e.equation e.unknown e.derivative)
    unfold written at hfirst
    unfold Signature.extend extendWrites
    rw [Update.apply_bind]
    split at hfirst
    · rename_i t ht
      rw [ht] at hfirst ⊢
      rw [List.append_cons]
      exact ih hfirst
    · rename_i t ht
      rw [ht] at hfirst ⊢
      exact hfirst

theorem Call.run_holds {state : Signature n × List (Nat × Nat × Int)} (h : state.1.Holds state.2) (call : Call) :
    (call.run state).1.Holds (call.run state).2 := by
  cases call with
  | insert i j x => exact h.stores (insert_stores state.1 i j x)
  | setDerivative i j derivative => exact h.stores (setDerivative_stores state.1 i j derivative)
  | append i j derivative => exact h.stores (append_stores state.1 i j derivative)
  | extend es => exact h.extend es

theorem runs_hold {state : Signature n × List (Nat × Nat × Int)} (h : state.1.Holds state.2) (calls : List Call) :
    (calls.foldl Call.run state).1.Holds (calls.foldl Call.run state).2 := by
  induction calls generalizing state with
  | nil => exact h
  | cons call calls ih => exact ih (call.run_holds h)

theorem empty_holds (n : Nat) : (empty n).Holds [] := by
  intro i j
  simp [lastWritten]

/-! ## Listings -/

theorem row_increasing (m : Signature n) (i : Nat) : (m.row i).Pairwise (·.1 < ·.1) := by
  unfold row
  split
  · exact List.pairwise_map.mpr (m.rows.get ⟨i, _⟩).increasing
  · exact .nil

def Before (a b : Fin n × Fin n × Int) : Prop := a.1 < b.1 ∨ a.1 = b.1 ∧ a.2.1 < b.2.1

theorem entries_before (m : Signature n) : m.entries.Pairwise Before := by
  unfold entries
  rw [List.pairwise_flatMap]
  constructor
  · intro i _
    rw [List.pairwise_map]
    exact (m.rows.get i).increasing.imp fun h => .inr ⟨rfl, h⟩
  · refine (List.pairwise_lt_finRange n).imp fun {i k} hik a ha b hb => ?_
    obtain ⟨p, -, rfl⟩ := List.mem_map.mp ha
    obtain ⟨q, -, rfl⟩ := List.mem_map.mp hb
    exact .inl hik

theorem nnz_eq_sum (m : Signature n) : m.nnz = (m.rows.toList.map SortedMap.size).sum :=
  m.nnz_eq.trans List.length_flatMap

theorem nnz_eq_length (m : Signature n) : m.nnz = m.entries.length := by
  rw [nnz_eq_sum, Vector.toList_eq_map_get]
  simp [entries, List.length_flatMap, Function.comp_def, SortedMap.size]

theorem nnz_eq_card (m : Signature n) :
    m.nnz = (Finset.univ.filter fun e : Fin n × Fin n => (m.get e.1 e.2).isSome).card := by
  have hnodup : (m.entries.map fun e => (e.1, e.2.1)).Nodup := by
    rw [List.Nodup, List.pairwise_map]
    refine m.entries_before.imp fun {a b} h heq => ?_
    obtain ⟨hrow, hcolumn⟩ := Prod.ext_iff.mp heq
    cases h with
    | inl hlt => exact absurd hrow (Fin.ne_of_lt hlt)
    | inr hlt => exact absurd hcolumn (Fin.ne_of_lt hlt.2)
  have hset : (m.entries.map fun e => (e.1, e.2.1)).toFinset =
      Finset.univ.filter fun e : Fin n × Fin n => (m.get e.1 e.2).isSome := by
    ext e
    simp [mem_entries_iff, Option.isSome_iff_exists, Prod.ext_iff]
  rw [nnz_eq_length, ← hset, List.toFinset_card_of_nodup hnodup, List.length_map]

/-- The counter is the number of positions that have been written. -/
theorem Holds.nnz_eq (h : m.Holds log) : m.nnz = (log.map fun e => (e.1, e.2.1)).toFinset.card := by
  have hinjective : Function.Injective (Prod.map (Fin.val : Fin n → Nat) (Fin.val : Fin n → Nat)) :=
    Fin.val_injective.prodMap Fin.val_injective
  rw [nnz_eq_card, ← Finset.card_image_of_injective _ hinjective]
  refine congrArg _ (Finset.ext fun ⟨k, l⟩ => ?_)
  rw [List.mem_toFinset, ← lastWritten_ne_none_iff, ← h k l, Finset.mem_image]
  constructor
  · intro ⟨⟨i, j⟩, hij, heq⟩
    obtain ⟨rfl, rfl⟩ := Prod.mk.inj heq
    rw [cost?_eq, ← Option.isSome_iff_ne_none]
    exact (Finset.mem_filter.mp hij).2
  · intro hne
    obtain ⟨x, hx⟩ := Option.ne_none_iff_exists'.mp hne
    obtain ⟨hk, hl, hget⟩ := cost?_eq_some_iff.mp hx
    exact ⟨(⟨k, hk⟩, ⟨l, hl⟩), by simp [hget], rfl⟩

/-! ## The compact form -/

theorem startsFrom_length (count : Nat) (rows : List (Row n)) : (startsFrom count rows).length = rows.length + 1 := by
  induction rows generalizing count with
  | nil => rfl
  | cons r rows ih => rw [startsFrom, List.length_cons, ih, List.length_cons]

theorem startsFrom_getElem? (count : Nat) (rows : List (Row n)) {i : Nat} (hi : i ≤ rows.length) :
    (startsFrom count rows)[i]? = some (count + ((rows.map SortedMap.size).take i).sum) := by
  induction rows generalizing count i with
  | nil =>
    obtain rfl : i = 0 := Nat.le_zero.mp hi
    rfl
  | cons r rows ih =>
    cases i with
    | zero => rfl
    | succ i =>
      rw [startsFrom, List.getElem?_cons_succ, ih _ (Nat.le_of_succ_le_succ hi)]
      simp [Nat.add_assoc]

theorem zip_flatMap {α β γ : Type} (l : List α) (f : α → List (β × γ)) :
    (l.flatMap fun a => (f a).map Prod.fst).zip (l.flatMap fun a => (f a).map Prod.snd) = (l.map f).flatten := by
  induction l with
  | nil => rfl
  | cons a l ih =>
    rw [List.flatMap_cons, List.flatMap_cons, List.zip_append (by simp), ih, List.map_cons, List.flatten_cons]
    simp [List.zip_map']

def rowLists (m : Signature n) : List (List (Nat × Int)) :=
  m.rows.toList.map fun r => r.entries.map fun (j, x) => (j.val, x)

@[simp] theorem length_rowLists (m : Signature n) : m.rowLists.length = n := by simp [rowLists]

theorem rowLists_getElem (m : Signature n) (hi : i < m.rowLists.length) : m.rowLists[i] = m.row i := by
  have hlt : i < n := by simpa using hi
  simp [rowLists, row, hlt, Vector.get]

theorem compact_zip (m : Signature n) : m.compact.columns.zip m.compact.costs = m.rowLists.flatten := by
  have h := zip_flatMap m.rows.toList fun r => r.entries.map fun (j, x) => (j.val, x)
  simpa [compact, rowLists, Function.comp_def] using h

theorem compact_starts (m : Signature n) (hi : i ≤ n) :
    m.compact.starts[i]? = some ((m.rowLists.map List.length).take i).sum := by
  have hsizes : m.rowLists.map List.length = m.rows.toList.map SortedMap.size := by simp [rowLists, SortedMap.size]
  have h := startsFrom_getElem? 0 m.rows.toList (i := i) (by simpa using hi)
  rwa [Nat.zero_add, ← hsizes] at h

structure Compact.Of (c : Compact) (m : Signature n) : Prop where
  starts : c.starts.length = n + 1
  columns : c.columns.length = m.nnz
  costs : c.costs.length = m.nnz
  rows : ∀ i < n, ∃ a b, c.starts[i]? = some a ∧ c.starts[i + 1]? = some b ∧
    ((c.columns.zip c.costs).take b).drop a = m.row i

theorem compact_of (m : Signature n) : m.compact.Of m where
  starts := by simp [compact, startsFrom_length]
  columns := by
    simp [compact, nnz_eq_sum, List.length_flatMap]
    rfl
  costs := by
    simp [compact, nnz_eq_sum, List.length_flatMap]
    rfl
  rows i hi := by
    refine ⟨_, _, m.compact_starts (Nat.le_of_lt hi), m.compact_starts hi, ?_⟩
    rw [compact_zip, List.drop_take_succ_flatten_eq_getElem _ _ (by simpa using hi), rowLists_getElem]

/-! ## Cached rows -/

theorem cheapestRow?_eq_none_iff (m : Signature n) (j : Nat) : m.cheapestRow? j = none ↔ ∀ i, m.cost? i j = none := by
  unfold cheapestRow? cost?
  by_cases hj : j < n
  · have hleast := m.cheapest_least ⟨j, hj⟩
    simp only [hj, dite_true, Option.map_eq_none_iff]
    cases hc : m.cheapest.get ⟨j, hj⟩ with
    | none =>
      rw [hc] at hleast
      exact iff_of_true rfl fun i => dite_eq_right_iff.mpr fun hi => hleast ⟨i, hi⟩
    | some r =>
      rw [hc] at hleast
      obtain ⟨x, hx, -⟩ := hleast
      refine iff_of_false (Option.some_ne_none r) fun hnone => ?_
      have hr := hnone r
      rw [dif_pos r.isLt, get, hx] at hr
      cases hr
  · simp [hj]

theorem cost?_of_cheapestRow? (h : m.cheapestRow? j = some i) :
    ∃ x, m.cost? i j = some x ∧ ∀ k y, m.cost? k j = some y → x ≤ y := by
  unfold cheapestRow? at h
  obtain ⟨hj, h⟩ := Option.dite_none_right_eq_some.mp h
  obtain ⟨r, hr, rfl⟩ := Option.map_eq_some_iff.mp h
  have hleast := m.cheapest_least ⟨j, hj⟩
  rw [hr] at hleast
  obtain ⟨x, hx, hall⟩ := hleast
  refine ⟨x, (m.cost?_eq r ⟨j, hj⟩).trans hx, fun k y hy => ?_⟩
  obtain ⟨hk, _, hget⟩ := cost?_eq_some_iff.mp hy
  exact hall ⟨k, hk⟩ y hget

/-! ## What the log says of the matrix -/

structure Represents (m : Signature n) (log : List (Nat × Nat × Int)) : Prop where
  cost : m.Holds log
  row : ∀ i j x, (j, x) ∈ m.row i ↔ m.cost? i j = some x
  rowIncreasing : ∀ i, (m.row i).Pairwise (·.1 < ·.1)
  nnz : m.nnz = (Finset.univ.filter fun e : Fin n × Fin n => (m.cost? e.1 e.2).isSome).card
  nnzWritten : m.nnz = (log.map fun e => (e.1, e.2.1)).toFinset.card
  entries : ∀ (i j : Fin n) (x : Int), (i, j, x) ∈ m.entries ↔ m.cost? i j = some x
  entriesBefore : m.entries.Pairwise Before
  compact : m.compact.Of m
  cheapestNone : ∀ j, m.cheapestRow? j = none ↔ ∀ i, m.cost? i j = none
  cheapestSome : ∀ j i, m.cheapestRow? j = some i → ∃ x, m.cost? i j = some x ∧ ∀ k y, m.cost? k j = some y → x ≤ y

theorem Holds.represents (h : m.Holds log) : m.Represents log where
  cost := h
  row _ _ _ := mem_row_iff_cost?
  rowIncreasing := row_increasing m
  nnz := by simp only [cost?_eq, nnz_eq_card]
  nnzWritten := h.nnz_eq
  entries i j x := by rw [mem_entries_iff, cost?_eq]
  entriesBefore := entries_before m
  compact := compact_of m
  cheapestNone := cheapestRow?_eq_none_iff m
  cheapestSome _ _ := cost?_of_cheapestRow?

/-- **After any calls the matrix is what their writes make of it**, and it accepts what it has a place for. -/
theorem replay_represents (n : Nat) (calls : List Call) :
    (replay n calls).1.Represents (replay n calls).2 ∧
      ∀ call : Call, (call.update.apply (replay n calls).1).1 = .ok () ↔ call.Accepted (replay n calls).1 := by
  have hholds : (replay n calls).1.Holds (replay n calls).2 := runs_hold (empty_holds n) calls
  exact ⟨hholds.represents, fun call => call.update_eq_ok_iff⟩

/-- The second call is refused, and the third fails at its second incidence. -/
example : (replay 2 [.insert 0 1 5, .append 0 0 1, .extend [⟨0, 1, 3⟩, ⟨2, 0, 0⟩, ⟨1, 0, 0⟩]]).2 =
    [(0, 1, 5), (0, 1, -3)] := by
  decide +kernel

end Signature

end SigmaMethod
