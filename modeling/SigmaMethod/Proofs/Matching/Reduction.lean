import Mathlib.Data.List.Nodup
import SigmaMethod.Matching.Reduction
import SigmaMethod.Proofs.Matching.Assignment
import SigmaMethod.Proofs.Outcome

/-!
# Columns and rows choose

On a matrix without empty columns, column reduction makes the reduced costs non-negative and the matched ones zero; the
transfer then lowers the column of a row by what the row can spare. Both keep the assignment consistent and least in its
rows, and `reductionTransfer` hands over the list of free rows.
-/

namespace SigmaMethod

variable {n : Nat} {m : Signature n}

theorem notMem_of_prefix_snoc {α : Type} {l done : List α} {a : α} (hl : l.Nodup) (h : done ++ [a] <+: l) :
    a ∉ done := fun ha =>
  (List.nodup_append.mp (hl.sublist h.sublist)).2.2 a ha a (List.mem_singleton_self a) rfl

/-! ## Columns choose rows -/

structure Offers.Chosen (m : Signature n) (o : Offers n) (done : List (Fin n)) : Prop where
  consistent : o.assignment.Consistent m
  nonneg : ∀ j ∈ done, ∀ i x, m.get i j = some x → o.assignment.v.get j ≤ x
  tight : ∀ i j, o.assignment.columnOf.get i = some j → j ∈ done ∧ m.get i j = some (o.assignment.v.get j)
  count : ∀ i, o.count.get i = 0 ↔ o.assignment.columnOf.get i = none

namespace Offers

variable {o : Offers n} {done : List (Fin n)} {i j : Fin n} {x : Int}

theorem Chosen.nonneg_snoc (h : o.Chosen m done) (hj : j ∉ done) (hleast : ∀ r z, m.get r j = some z → x ≤ z) :
    ∀ k ∈ done ++ [j], ∀ r z, m.get r k = some z → (o.assignment.setPotential j x).v.get k ≤ z := by
  intro k hk r z hz
  rw [DualAssignment.setPotential_v]
  rcases List.mem_append.mp hk with hk | hk
  · have hkj : k ≠ j := fun e => hj (e ▸ hk)
    rw [if_neg hkj]
    exact h.nonneg k hk r z hz
  · obtain rfl := List.mem_singleton.mp hk
    rw [if_pos rfl]
    exact hleast r z hz

theorem Chosen.tight_snoc (h : o.Chosen m done) (hj : j ∉ done) : ∀ r k, o.assignment.columnOf.get r = some k →
    k ∈ done ++ [j] ∧ m.get r k = some ((o.assignment.setPotential j x).v.get k) := by
  intro r k hrk
  obtain ⟨hk, hget⟩ := h.tight r k hrk
  have hkj : k ≠ j := fun e => hj (e ▸ hk)
  exact ⟨List.mem_append_left _ hk, by rw [DualAssignment.setPotential_v, if_neg hkj]; exact hget⟩

/-- The row is the first to be chosen, and takes the column. -/
theorem Chosen.take (h : o.Chosen m done) (hj : j ∉ done) (hx : m.get i j = some x)
    (hleast : ∀ r z, m.get r j = some z → x ≤ z) (hcount : o.count.get i = 0) :
    Chosen m ⟨(o.assignment.setPotential j x).pair i j, o.count.put i (o.count.get i + 1)⟩ (done ++ [j]) := by
  have hrow := (h.count i).mp hcount
  have hfree : o.assignment.rowOf.get j = none := by
    refine Option.eq_none_iff_forall_ne_some.mpr fun r hr => hj ?_
    exact (h.tight r j ((h.consistent.agree r j).mpr hr)).1
  refine ⟨h.consistent.setPotential.pair hrow hfree hx, h.nonneg_snoc hj hleast, fun r k hrk => ?_, fun r => ?_⟩
  · rw [DualAssignment.pair_columnOf] at hrk
    split at hrk
    · cases hrk
      refine ⟨List.mem_append_right _ (List.mem_singleton_self j), ?_⟩
      rw [‹r = i›, DualAssignment.pair_v, DualAssignment.setPotential_v, if_pos rfl]
      exact hx
    · exact h.tight_snoc hj r k hrk
  · dsimp only
    rw [Vector.get_put, DualAssignment.pair_columnOf]
    by_cases hr : r = i
    · simp [hr]
    · simpa [hr] using h.count r

/-- The row has been chosen before, and the column stays free. -/
theorem Chosen.pass (h : o.Chosen m done) (hj : j ∉ done) (hleast : ∀ r z, m.get r j = some z → x ≤ z)
    (hcount : o.count.get i ≠ 0) :
    Chosen m ⟨o.assignment.setPotential j x, o.count.put i (o.count.get i + 1)⟩ (done ++ [j]) := by
  refine ⟨h.consistent.setPotential, h.nonneg_snoc hj hleast, h.tight_snoc hj, fun r => ?_⟩
  dsimp only
  rw [Vector.get_put]
  by_cases hr : r = i
  · subst hr
    simpa using mt (h.count r).mpr hcount
  · simpa [hr] using h.count r

theorem Chosen.choose (h : o.Chosen m done) (hj : j ∉ done) (hcol : m.cheapest.get j ≠ none) :
    Yields (o.choose m j) fun o => o.Chosen m (done ++ [j]) := by
  unfold Offers.choose
  obtain ⟨i, hi⟩ := Option.ne_none_iff_exists'.mp hcol
  obtain ⟨x, hx, hleast⟩ : IsCheapest m.rows j (some i) := hi ▸ m.cheapest_least j
  change m.get i j = some x at hx
  simp only [hi]
  rw [Signature.pairCost_eq hx]
  refine .bind (P := fun y => y = x) (.ok rfl) ?_
  rintro y rfl
  refine .pure ?_
  by_cases hcount : o.count.get i = 0
  · rw [if_pos hcount]
    exact h.take hj hx hleast hcount
  · rw [if_neg hcount]
    exact h.pass hj hleast hcount

end Offers

theorem columnReduction_spec (hcol : ∀ j, m.cheapest.get j ≠ none) :
    Yields (columnReduction m) fun o => o.Chosen m (List.finRange n).reverse := by
  unfold columnReduction
  refine Delivers.foldlM_done (I := fun done o => Offers.Chosen m o done) ?_ ?_
  · constructor
    · exact ⟨fun i j => by simp [DualAssignment.zero, Vector.get],
        fun i j h => by simp [DualAssignment.zero, Vector.get] at h⟩
    · exact fun j hj => nomatch hj
    · intro i j h
      simp [DualAssignment.zero, Vector.get] at h
    · intro i
      simp [DualAssignment.zero, Vector.get]
  · intro done j o hdone h
    exact h.choose (notMem_of_prefix_snoc (List.nodup_reverse.mpr (List.nodup_finRange n)) hdone) (hcol j)

/-! ## Rows pass slack on -/

theorem Signature.slack_spec (m : Signature n) {v : Vector Int n} {i j : Fin n}
    (hnonneg : ∀ k x, m.get i k = some x → v.get k ≤ x) :
    Yields (m.slack v i j) fun best => ∀ s, best = some s →
      0 ≤ s ∧ ∀ k x, k ≠ j → m.get i k = some x → s ≤ x - v.get k := by
  unfold slack
  let entries := (m.rows.get i).entries.filter fun e => e.1 ≠ j
  have hmem : ∀ k x, (k, x) ∈ entries ↔ k ≠ j ∧ m.get i k = some x := by
    intro k x
    simp only [entries, List.mem_filter, mem_row_iff, decide_eq_true_eq]
    exact and_comm
  refine Delivers.imp (Delivers.foldlM_done (I := fun done best => (best = none → done = []) ∧
    ∀ s, best = some s → 0 ≤ s ∧ ∀ k x, (k, x) ∈ done → s ≤ x - v.get k) ⟨fun _ => rfl, fun s hs => nomatch hs⟩ ?_) ?_
  · rintro done ⟨k, x⟩ best hdone ⟨hnone, hsome⟩
    obtain ⟨-, hkx⟩ := (hmem k x).mp (hdone.subset (List.mem_append_right done (List.mem_singleton_self _)))
    have hx := hnonneg k x hkx
    refine .bind (.fit rfl) fun h hh => .pure ?_
    cases best with
    | none =>
      refine ⟨fun h => (nomatch h), fun s hs => ?_⟩
      cases hs
      refine ⟨by omega, fun l y hy => ?_⟩
      rw [hnone rfl, List.nil_append, List.mem_singleton] at hy
      cases hy
      omega
    | some b =>
      obtain ⟨hb, hle⟩ := hsome b rfl
      refine ⟨fun h => (nomatch h), fun s hs => ?_⟩
      cases hs
      refine ⟨by omega, fun l y hy => ?_⟩
      rcases List.mem_append.mp hy with hy | hy
      · have := hle l y hy
        omega
      · cases List.mem_singleton.mp hy
        omega
  · intro best hbest s hs
    obtain ⟨h0, hle⟩ := hbest.2 s hs
    exact ⟨h0, fun k x hk hx => hle k x ((hmem k x).mpr ⟨hk, hx⟩)⟩

namespace DualAssignment

structure Transferred (m : Signature n) (a : DualAssignment n) (done : List (Fin n)) : Prop where
  consistent : a.Consistent m
  nonneg : ∀ i j x, m.get i j = some x → a.v.get j ≤ x
  tight : ∀ i j, a.columnOf.get i = some j → i ∉ done → m.get i j = some (a.v.get j)
  leastInRows : a.LeastInRows m

theorem Transferred.grow {a : DualAssignment n} {done : List (Fin n)} (h : a.Transferred m done) (i : Fin n) :
    a.Transferred m (done ++ [i]) :=
  ⟨h.consistent, h.nonneg, fun r k hrk hr => h.tight r k hrk fun hmem => hr (List.mem_append_left _ hmem),
    h.leastInRows⟩

theorem Transferred.spare {a : DualAssignment n} {done : List (Fin n)} (h : a.Transferred m done)
    {i j : Fin n} {s : Int} (hi : i ∉ done) (hcol : a.columnOf.get i = some j) (hs : 0 ≤ s)
    (hle : ∀ k x, k ≠ j → m.get i k = some x → s ≤ x - a.v.get k) :
    (a.setPotential j (a.v.get j - s)).Transferred m (done ++ [i]) := by
  have hother : ∀ r, r ≠ i → a.columnOf.get r ≠ some j := fun r hr hrj => hr (h.consistent.row_unique hrj hcol)
  refine ⟨h.consistent.setPotential, fun r k y hy => ?_, fun r k hrk hr => ?_, fun r => ?_⟩
  · have := h.nonneg r k y hy
    rw [setPotential_v]
    split
    · rename_i hk
      subst hk
      omega
    · exact this
  · have hri : r ≠ i := fun e => hr (by simp [e])
    have hkj : k ≠ j := fun e => hother r hri (e ▸ hrk)
    rw [setPotential_v, if_neg hkj]
    exact h.tight r k hrk fun hmem => hr (List.mem_append_left _ hmem)
  · by_cases hri : r = i
    · subst hri
      intro k y l z hrk hy hz
      rw [setPotential_columnOf, hcol] at hrk
      cases hrk
      rw [h.tight r j hcol hi] at hy
      cases hy
      rw [setPotential_v, setPotential_v, if_pos rfl]
      by_cases hl : l = j
      · subst hl
        rw [h.tight r l hcol hi] at hz
        cases hz
        exact Int.le_of_eq (by rw [if_pos rfl])
      · have := hle l z hl hz
        rw [if_neg hl]
        omega
    · exact (h.leastInRows r).lower (Int.sub_le_self _ hs) (hother r hri)

theorem Transferred.transfer {a : DualAssignment n} {done : List (Fin n)} (h : a.Transferred m done) {i : Fin n}
    (hi : i ∉ done) : Yields (a.transfer m i) fun b => b.Transferred m (done ++ [i]) ∧ b.columnOf = a.columnOf := by
  unfold DualAssignment.transfer
  cases hcol : a.columnOf.get i with
  | none => exact .ok ⟨h.grow i, rfl⟩
  | some j =>
    refine (m.slack_spec (h.nonneg i)).bind fun best hbest => ?_
    cases best with
    | none => exact .pure ⟨h.grow i, rfl⟩
    | some s =>
      obtain ⟨hs, hle⟩ := hbest s rfl
      refine .bind (.fit rfl) fun x hx => .pure ⟨?_, rfl⟩
      subst hx
      exact h.spare hi hcol hs hle

end DualAssignment

structure Reduced (m : Signature n) (a : DualAssignment n) (free : List (Fin n)) : Prop where
  consistent : a.Consistent m
  leastInRows : a.LeastInRows m
  free : a.FreeAre free

theorem Offers.Chosen.transferred {o : Offers n} (h : o.Chosen m (List.finRange n).reverse) :
    o.assignment.Transferred m [] := by
  have hall : ∀ j, j ∈ (List.finRange n).reverse := fun j => by simp
  refine ⟨h.consistent, fun i j => h.nonneg j (hall j) i, fun i j hij _ => (h.tight i j hij).2, ?_⟩
  intro i j x k y hij hx hy
  have h₁ := (h.tight i j hij).2
  have h₂ := h.nonneg k (hall k) i y hy
  rw [hx] at h₁
  cases h₁
  omega

theorem reductionTransfer_spec {o : Offers n} (h : o.Chosen m (List.finRange n).reverse) :
    Yields (reductionTransfer m o) fun r => Reduced m r.1 r.2 := by
  unfold reductionTransfer
  have hsingle : ((List.finRange n).filter fun i => o.count.get i = 1).Nodup := (List.nodup_finRange n).filter _
  have hloop : Yields
      (((List.finRange n).filter fun i => o.count.get i = 1).foldlM (DualAssignment.transfer m) o.assignment)
      fun a => a.Transferred m ((List.finRange n).filter fun i => o.count.get i = 1) ∧
        a.columnOf = o.assignment.columnOf := by
    refine Delivers.foldlM_done (I := fun done a => DualAssignment.Transferred m a done ∧
      a.columnOf = o.assignment.columnOf) ⟨h.transferred, rfl⟩ ?_
    rintro done i a hdone ⟨ha, hcol⟩
    exact (ha.transfer (notMem_of_prefix_snoc hsingle hdone)).imp fun b ⟨hb, hbcol⟩ => ⟨hb, hbcol.trans hcol⟩
  refine hloop.bind fun a ⟨ha, hcol⟩ => .pure ⟨ha.consistent, ha.leastInRows, ?_, fun i => ?_⟩
  · exact (List.nodup_finRange n).filter _
  · rw [hcol, ← h.count i]
    simp

end SigmaMethod
