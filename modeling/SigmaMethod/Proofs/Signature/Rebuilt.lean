import SigmaMethod.Proofs.Matching.Transversal
import SigmaMethod.Proofs.Signature.Calls

/-!
# Matrices rebuilt from their incidences

A matrix lists its incidences row by row, so the strict way in takes them back in the order of the listing, and there it
does what a plain write does. Their positions differ, so the plain writes lead to the same entries in any order. What
can be read of a matrix is a function of its entries, however it was built.
-/

namespace SigmaMethod

def Incidence.Before (a b : Incidence) : Prop :=
  a.equation < b.equation ∨ a.equation = b.equation ∧ a.unknown < b.unknown

namespace Signature

variable {n : Nat} {m t : Signature n} {i j : Nat} {derivative : Int}

/-! ## The strict way in -/

theorem setDerivative_apply (h : Incident n i j derivative) : (setDerivative i j derivative).apply m =
    (.ok (), m.put ⟨i, h.1⟩ ⟨j, h.2.1⟩ (-derivative)) := by
  obtain ⟨hi, hj, h₀, hrange⟩ := h
  have hcost := (derivativeCost_eq_ok_iff (i := i) (j := j)).mpr ⟨h₀, hrange, rfl⟩
  simp [setDerivative, insert, hcost, inBound, hi, hj]

theorem append_apply (h : ((append i j derivative).apply m).1 = .ok ()) :
    (append i j derivative).apply m = (setDerivative i j derivative).apply m := by
  simp only [append, Update.liftM_bind_eq_ok_iff, inBound_eq_ok_iff, Update.apply_getThe_bind,
    derivativeCost_eq_ok_iff] at h
  obtain ⟨r, rfl, s, rfl, _, hcheck, _, ⟨h₀, hrange, rfl⟩, -⟩ := h
  have hcost := (derivativeCost_eq_ok_iff (i := r) (j := s)).mpr ⟨h₀, hrange, rfl⟩
  rw [setDerivative_apply ⟨r.isLt, s.isLt, h₀, hrange⟩]
  simp [append, inBound, hcheck, hcost]

theorem appendEach_apply {es : List Incidence} (hall : ∀ e ∈ es, Incident n e.equation e.unknown e.derivative)
    (horder : es.Pairwise Incidence.Before)
    (hbefore : ∀ k l x, m.cost? k l = some x → ∀ e ∈ es, Incidence.Before ⟨k, l, x⟩ e) :
    (es.forM fun e => append e.equation e.unknown e.derivative).apply m = (extend es).apply m := by
  induction es generalizing m with
  | nil => rfl
  | cons e es ih =>
    obtain ⟨hlater, horder⟩ := List.pairwise_cons.mp horder
    obtain ⟨he, hall⟩ := List.forall_mem_cons.mp hall
    have hok := append_eq_ok_iff.mpr ⟨he, fun k l x hx => hbefore k l x hx e List.mem_cons_self⟩
    rw [List.forM_eq_forM, List.forM_cons, Update.apply_bind, append_apply hok, extend, Update.apply_bind,
      setDerivative_apply he]
    refine ih hall horder fun k l x hx e' he' => ?_
    rw [cost?_put] at hx
    split at hx
    · rename_i hkl
      have := hlater e' he'
      unfold Incidence.Before at this ⊢
      simpa [hkl.1, hkl.2] using this
    · exact hbefore k l x hx e' (List.mem_cons_of_mem e he')

/-! ## What can be read of a matrix -/

structure Same (t m : Signature n) : Prop where
  get : ∀ i j, t.get i j = m.get i j
  row : ∀ i, t.row i = m.row i
  nnz : t.nnz = m.nnz

theorem row_nodup (m : Signature n) (i : Nat) : (m.row i).Nodup :=
  (m.row_increasing i).imp fun {a b} h heq => by
    subst heq
    exact Nat.lt_irrefl _ h

theorem same_of_cost? (h : ∀ i j, t.cost? i j = m.cost? i j) : t.Same m where
  get i j := by rw [← cost?_eq, h, cost?_eq]
  row i := by
    have hmem : ∀ e, e ∈ t.row i ↔ e ∈ m.row i := fun e => by rw [mem_row_iff_cost?, mem_row_iff_cost?, h]
    have hperm : (t.row i).Perm (m.row i) := (List.perm_ext_iff_of_nodup (t.row_nodup i) (m.row_nodup i)).mpr hmem
    exact hperm.eq_of_pairwise (fun a b _ _ hab hba => absurd hba (Nat.lt_asymm hab)) (t.row_increasing i)
      (m.row_increasing i)
  nnz := by
    rw [nnz_eq_card, nnz_eq_card]
    simp only [← cost?_eq, h]

theorem Same.cost? (h : t.Same m) (i j : Nat) : t.cost? i j = m.cost? i j := by
  unfold Signature.cost?
  split
  · split
    · exact h.get _ _
    · rfl
  · rfl

/-! ## The listing of a matrix -/

def listed (e : Fin n × Fin n × Int) : Incidence := ⟨e.1, e.2.1, -e.2.2⟩

theorem incidences_eq (h : ∀ i j x, m.get i j = some x → InRange (-x)) : m.incidences = .ok (m.entries.map listed) := by
  unfold incidences
  refine mapM_eq_ok ?_
  rintro ⟨i, j, x⟩ he
  have hfit : fit (-x) = .ok (-x) := fit_eq_ok_iff.mpr ⟨h i j x (mem_entries_iff.mp he), rfl⟩
  dsimp only
  rw [hfit]
  rfl

theorem mem_map_listed {k l : Nat} {x : Int} :
    (k, l, x) ∈ (m.entries.map listed).map Incidence.entry ↔ m.cost? k l = some x := by
  rw [Incidence.mem_map_entry, List.mem_map, cost?_eq_some_iff]
  constructor
  · rintro ⟨⟨i, j, y⟩, he, hlisted⟩
    simp only [listed, Incidence.mk.injEq, Int.neg_inj] at hlisted
    obtain ⟨rfl, rfl, rfl⟩ := hlisted
    exact ⟨i.isLt, j.isLt, mem_entries_iff.mp he⟩
  · rintro ⟨hk, hl, hget⟩
    exact ⟨(⟨k, hk⟩, ⟨l, hl⟩, x), mem_entries_iff.mpr hget, rfl⟩

theorem incidences_before (m : Signature n) : (m.entries.map listed).Pairwise Incidence.Before := by
  rw [List.pairwise_map]
  exact m.entries_before.imp fun h => by simpa [Incidence.Before, Before, listed, Fin.ext_iff] using h

theorem incident_listed (hcosts : ∀ i j x, m.get i j = some x → -2147483647 ≤ x ∧ x ≤ 0) {e : Incidence}
    (he : e ∈ m.entries.map listed) : Incident n e.equation e.unknown e.derivative := by
  obtain ⟨hi, hj, hget⟩ := cost?_eq_some_iff.mp (mem_map_listed.mp (List.mem_map_of_mem he))
  have := hcosts _ _ _ hget
  exact ⟨hi, hj, by omega, by omega, by omega⟩

theorem extend_listed (hcosts : ∀ i j x, m.get i j = some x → -2147483647 ≤ x ∧ x ≤ 0) {es : List Incidence}
    (hperm : es.Perm (m.entries.map listed)) : ∃ t, (extend es).apply (empty n) = (.ok (), t) ∧ t.Same m := by
  have hmem : ∀ {k l x}, (k, l, x) ∈ es.map Incidence.entry ↔ m.cost? k l = some x := fun {k l x} => by
    rw [(hperm.map _).mem_iff, mem_map_listed]
  have hfunctional : Functional (es.map Incidence.entry) := by
    intro k l x y hx hy
    rw [hmem] at hx hy
    exact Option.some.inj (hx.symm.trans hy)
  obtain ⟨t, ht, hadds⟩ := exists_extend (fun e he => incident_listed hcosts (hperm.mem_iff.mp he)) hfunctional
    (m := empty n) fun e _ => cost?_empty
  obtain ⟨_, happly⟩ := Update.result_eq_ok_iff.mp ht
  refine ⟨t, happly, same_of_cost? fun i j => Option.ext fun x => ?_⟩
  rw [hadds, hmem, cost?_empty, or_iff_right (fun h => nomatch h)]

theorem appendEach_listed (hcosts : ∀ i j x, m.get i j = some x → -2147483647 ≤ x ∧ x ≤ 0) :
    ∃ t, ((m.entries.map listed).forM fun e => append e.equation e.unknown e.derivative).apply (empty n) = (.ok (), t) ∧
      t.Same m := by
  rw [appendEach_apply (fun e he => incident_listed hcosts he) m.incidences_before fun k l x hx => by simp at hx]
  exact extend_listed hcosts (.refl _)

/-- **The strict way in accepts exactly what comes after all entries**, and a matrix is rebuilt from its incidences, by
the strict way in as they are listed and by plain writes in any order. -/
theorem append_rebuilds :
    (∀ {n : Nat} (m : Signature n) (i j : Nat) (derivative : Int), i < n → j < n → InRange derivative →
      (((append i j derivative).apply m).1 = .ok () ↔
        0 ≤ derivative ∧ ∀ k l x, m.cost? k l = some x → k < i ∨ k = i ∧ l < j) ∧
      (((append i j derivative).apply m).1 = .ok () →
        (append i j derivative).apply m = (setDerivative i j derivative).apply m)) ∧
    ∀ {n : Nat} (m : Signature n), (∀ i j x, m.get i j = some x → -2147483647 ≤ x ∧ x ≤ 0) →
      ∃ es, m.incidences = .ok es ∧
        (∃ t, (es.forM fun e => append e.equation e.unknown e.derivative).apply (empty n) = (.ok (), t) ∧ t.Same m) ∧
        ∀ es' : List Incidence, es'.Perm es → ∃ t, ofIncidences n es' = .ok t ∧ t.Same m := by
  constructor
  · intro n m i j derivative hi hj hrange
    refine ⟨?_, append_apply⟩
    have hincident : Incident n i j derivative ↔ 0 ≤ derivative :=
      ⟨fun h => h.2.2.1, fun h => ⟨hi, hj, h, by have := hrange.2; omega, by omega⟩⟩
    rw [append_eq_ok_iff, hincident]
  · intro n m hcosts
    refine ⟨_, incidences_eq fun i j x hx => ?_, ?_, fun es' hperm => ?_⟩
    · have := hcosts i j x hx
      exact ⟨by omega, by omega⟩
    · exact appendEach_listed hcosts
    · obtain ⟨t, ht, hsame⟩ := extend_listed hcosts hperm
      exact ⟨t, Update.result_eq_ok_iff.mpr ⟨(), ht⟩, hsame⟩

theorem append_rebuilds_pendulum :
    (((append 1 0 3).apply ((empty 2).put 0 1 0)).1 = .ok () ∧
      (append 1 0 3).apply ((empty 2).put 0 1 0) = (setDerivative 1 0 3).apply ((empty 2).put 0 1 0)) ∧
    ((append 0 0 3).apply ((empty 2).put 0 1 0)).1 ≠ .ok () ∧
    ∃ es, pendulum.incidences = .ok es ∧
      (∃ t, (es.forM fun e => append e.equation e.unknown e.derivative).apply (empty 3) = (.ok (), t) ∧
        t.Same pendulum) ∧
      ∃ t, ofIncidences 3 es.reverse = .ok t ∧ t.Same pendulum := by
  obtain ⟨happend, hrebuilds⟩ := append_rebuilds
  refine ⟨?_, ?_, ?_⟩
  · obtain ⟨hiff, hsame⟩ := happend ((empty 2).put 0 1 0) 1 0 3 (by decide) (by decide) (by decide)
    have hbefore : ∀ k l x, ((empty 2).put 0 1 0).cost? k l = some x → k < 1 ∨ k = 1 ∧ l < 0 := by
      intro k l x hx
      rw [cost?_put, cost?_empty] at hx
      obtain ⟨⟨rfl, -⟩, -⟩ := Option.ite_none_right_eq_some.mp hx
      exact .inl (by decide)
    have hok := hiff.mpr ⟨by decide, hbefore⟩
    exact ⟨hok, hsame hok⟩
  · obtain ⟨hiff, -⟩ := happend ((empty 2).put 0 1 0) 0 0 3 (by decide) (by decide) (by decide)
    intro hok
    have := (hiff.mp hok).2 0 1 0 (by simp [cost?_put])
    omega
  · have hcosts : ∀ i j, ∀ x ∈ pendulum.get i j, -2147483647 ≤ x ∧ x ≤ 0 := by decide
    obtain ⟨es, hes, happended, hpermuted⟩ := hrebuilds pendulum hcosts
    exact ⟨es, hes, happended, hpermuted es.reverse es.reverse_perm⟩

end Signature

end SigmaMethod
