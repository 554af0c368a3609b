import SigmaMethod.Proofs.Matching.Reduction
import SigmaMethod.Proofs.Matching.Transversal

/-!
# Sweeps of row reduction

A step of a sweep matches one row, with or without displacing another. It keeps the assignment consistent and least in
its rows, and the free rows are the ones still pending and the ones left. A sweep ends because each step uses up a row
or the budget. `reduction_spec` sums up all phases.
-/

namespace SigmaMethod

variable {n : Nat} {m : Signature n}

/-! ## The two best columns of a row -/

def Cheapest2.Second (v : Vector Int n) (done : List (Fin n × Int)) (column : Fin n) : Option (Fin n × Int) → Prop
  | none => ∀ l x, (l, x) ∈ done → l = column
  | some (k, s) => (∃ x, (k, x) ∈ done ∧ s = x - v.get k) ∧ ∀ l x, (l, x) ∈ done → l ≠ column → s ≤ x - v.get l

structure Cheapest2.Best (v : Vector Int n) (done : List (Fin n × Int)) (c : Cheapest2 n) : Prop where
  column : ∃ x, (c.column, x) ∈ done ∧ c.least = x - v.get c.column
  least : ∀ l x, (l, x) ∈ done → c.least ≤ x - v.get l
  second : Second v done c.column c.second

namespace Cheapest2

variable {v : Vector Int n} {done : List (Fin n × Int)} {c : Cheapest2 n} {j k l : Fin n} {s x y : Int}

theorem mem_snoc : (l, y) ∈ done ++ [(j, x)] ↔ (l, y) ∈ done ∨ l = j ∧ y = x := by
  rw [List.mem_append, List.mem_singleton, Prod.mk.injEq]

theorem Best.column_snoc (h : c.Best v done) :
    ∃ y, (c.column, y) ∈ done ++ [(j, x)] ∧ c.least = y - v.get c.column := by
  obtain ⟨y, hy, hleast⟩ := h.column
  exact ⟨y, mem_snoc.mpr (.inl hy), hleast⟩

theorem Best.least_snoc (h : c.Best v done) (hle : c.least ≤ x - v.get j) :
    ∀ l y, (l, y) ∈ done ++ [(j, x)] → c.least ≤ y - v.get l := by
  intro l y hy
  rcases mem_snoc.mp hy with hy | ⟨rfl, rfl⟩
  · exact h.least l y hy
  · exact hle

theorem Best.addSecond (h : c.Best v done) (hle : c.least ≤ x - v.get j)
    (hrest : ∀ l y, (l, y) ∈ done → l ≠ c.column → x - v.get j ≤ y - v.get l) :
    ({ c with second := some (j, x - v.get j) } : Cheapest2 n).Best v (done ++ [(j, x)]) := by
  refine ⟨h.column_snoc, h.least_snoc hle, ⟨x, mem_snoc.mpr (.inr ⟨rfl, rfl⟩), rfl⟩, fun l y hy hl => ?_⟩
  rcases mem_snoc.mp hy with hy | ⟨rfl, rfl⟩
  · exact hrest l y hy hl
  · exact Int.le_refl _

theorem Best.addBest (h : c.Best v done) (hlt : x - v.get j < c.least) :
    (⟨j, x - v.get j, some (c.column, c.least)⟩ : Cheapest2 n).Best v (done ++ [(j, x)]) := by
  refine ⟨⟨x, mem_snoc.mpr (.inr ⟨rfl, rfl⟩), rfl⟩, fun l y hy => ?_, h.column_snoc, fun l y hy hl => ?_⟩
  · rcases mem_snoc.mp hy with hy | ⟨rfl, rfl⟩
    · exact Int.le_trans (Int.le_of_lt hlt) (h.least l y hy)
    · exact Int.le_refl _
  · rcases mem_snoc.mp hy with hy | ⟨rfl, -⟩
    · exact h.least l y hy
    · exact absurd rfl hl

theorem Best.addNone (h : c.Best v done) (hs : c.second = some (k, s)) (hle : s ≤ x - v.get j) :
    c.Best v (done ++ [(j, x)]) := by
  have hsecond := h.second
  rw [hs] at hsecond
  obtain ⟨⟨y, hy, hys⟩, hmin⟩ := hsecond
  have hleast : c.least ≤ s := hys ▸ h.least k y hy
  refine ⟨h.column_snoc, h.least_snoc (Int.le_trans hleast hle), ?_⟩
  rw [hs]
  refine ⟨⟨y, mem_snoc.mpr (.inl hy), hys⟩, fun l z hz hl => ?_⟩
  rcases mem_snoc.mp hz with hz | ⟨rfl, rfl⟩
  · exact hmin l z hz hl
  · exact hle

theorem Best.add (h : c.Best v done) : (c.add j (x - v.get j)).Best v (done ++ [(j, x)]) := by
  have hsecond := h.second
  unfold Cheapest2.add
  cases hs : c.second with
  | none =>
    rw [hs] at hsecond
    simp only [Option.all_none, ite_true]
    split
    · rename_i hle
      exact h.addSecond hle fun l y hy hl => absurd (hsecond l y hy) hl
    · rename_i hlt
      exact h.addBest (Int.not_le.mp hlt)
  | some e =>
    rw [hs] at hsecond
    simp only [Option.all_some, decide_eq_true_eq]
    split
    · rename_i hbeats
      split
      · rename_i hle
        refine h.addSecond hle fun l y hy hl => ?_
        exact Int.le_trans (Int.le_of_lt hbeats) (hsecond.2 l y hy hl)
      · rename_i hlt
        exact h.addBest (Int.not_le.mp hlt)
    · rename_i hnot
      exact h.addNone hs (Int.not_lt.mp hnot)

end Cheapest2

theorem Signature.cheapest2_spec (m : Signature n) (v : Vector Int n) (i : Fin n) :
    Yields (m.cheapest2 v i) fun best => match best with
      | none => ∀ j, m.get i j = none
      | some c => c.Best v (m.rows.get i).entries := by
  unfold cheapest2
  have hmem : ∀ j x, (j, x) ∈ (m.rows.get i).entries ↔ m.get i j = some x := fun j x => mem_row_iff
  split
  · rename_i hnil
    refine .ok fun j => Option.eq_none_iff_forall_ne_some.mpr fun x hx => ?_
    rw [← hmem, hnil] at hx
    cases hx
  · rename_i j x rest hcons
    rw [hcons]
    refine .bind (.fit rfl) fun h hh => ?_
    have hfirst : (⟨j, h, none⟩ : Cheapest2 n).Best v [(j, x)] := by
      refine ⟨⟨x, List.mem_singleton_self _, hh.symm⟩, fun k y hy => ?_, fun k y hy => ?_⟩
      · cases List.mem_singleton.mp hy
        exact Int.le_of_eq hh.symm
      · cases List.mem_singleton.mp hy
        rfl
    refine Delivers.bind (Delivers.foldlM_done (I := fun done (c : Cheapest2 n) => c.Best v ((j, x) :: done)) hfirst ?_)
      fun c hc => .pure hc
    rintro done ⟨k, y⟩ c - hc
    refine .bind (.fit rfl) fun h hh => .pure ?_
    subst hh
    exact hc.add

/-! ## One step -/

namespace Sweep

open DualAssignment

structure Sweeping (m : Signature n) (s : Sweep n) : Prop where
  consistent : s.assignment.Consistent m
  leastInRows : s.assignment.LeastInRows m
  free : s.assignment.FreeAre (s.pending ++ s.left)

variable {s t : Sweep n} {i j r : Fin n} {again : Bool}

theorem take_of_free (hj : s.assignment.rowOf.get j = none) :
    s.take i j again = { s with assignment := s.assignment.pair i j } := by
  simp only [take, hj]

/-- Displacing a row is taking its column away first. -/
theorem take_assignment (hj : s.assignment.rowOf.get j = some r) (hri : r ≠ i) :
    (s.take i j again).assignment = (s.assignment.release r j).pair i j := by
  have heq : ({ (s.assignment.pair i j) with columnOf := (s.assignment.pair i j).columnOf.put r none } :
        DualAssignment n) =
      (s.assignment.release r j).pair i j := by
    simp only [DualAssignment.pair, DualAssignment.release, Vector.put, DualAssignment.mk.injEq, true_and]
    exact ⟨Vector.set_comm _ _ fun e => hri (Fin.ext e).symm, by rw [Vector.set_set]⟩
  simp only [take, hj]
  split
  · exact heq
  · exact heq

theorem take_rows (hj : s.assignment.rowOf.get j = some r) :
    (r :: (s.pending ++ s.left)).Perm ((s.take i j again).pending ++ (s.take i j again).left) := by
  simp only [take, hj]
  split
  · exact .refl _
  · exact List.perm_middle.symm

theorem take_measure : (s.take i j again).measure ≤ s.measure := by
  unfold take measure
  cases s.assignment.rowOf.get j with
  | none => exact Nat.le_refl _
  | some r =>
    dsimp only
    split
    · rename_i h
      simp only [Bool.and_eq_true, decide_eq_true_eq] at h
      simp only [List.length_cons]
      omega
    · exact Nat.le_refl _

theorem Sweeping.take (hc : s.assignment.Consistent m) (hi : s.assignment.FreeAre (i :: (s.pending ++ s.left)))
    (hleast : ∀ r, s.assignment.rowOf.get j ≠ some r → s.assignment.LeastInRow m r) {x : Int} (hx : m.get i j = some x)
    (hbest : ∀ k y, m.get i k = some y → x - s.assignment.v.get j ≤ y - s.assignment.v.get k) :
    (s.take i j again).Sweeping m := by
  have hrow : s.assignment.columnOf.get i = none := (hi.mem_iff i).mp List.mem_cons_self
  have hbest' : ∀ x' k y, m.get i j = some x' → m.get i k = some y →
      x' - s.assignment.v.get j ≤ y - s.assignment.v.get k := by
    intro x' k y hx' hy
    rw [hx] at hx'
    cases hx'
    exact hbest k y hy
  cases hj : s.assignment.rowOf.get j with
  | none =>
    rw [take_of_free hj]
    refine ⟨hc.pair hrow hj hx, LeastInRows.pair (fun r => hleast r ?_) hbest', hi.pair⟩
    rw [hj]
    exact fun h => nomatch h
  | some r =>
    have hcol := (hc.agree r j).mpr hj
    have hri : r ≠ i := by
      rintro rfl
      rw [hrow] at hcol
      cases hcol
    have hassign : (s.take i j again).assignment = (s.assignment.release r j).pair i j := take_assignment hj hri
    have hreleased : (s.assignment.release r j).LeastInRows m := by
      intro k l y l' z hkl hy hz
      rw [release_columnOf] at hkl
      split at hkl
      · cases hkl
      · rename_i hkr
        exact hleast k (fun e => hkr (Option.some.inj (e.symm.trans hj))) l y l' z hkl hy hz
    refine ⟨?_, ?_, ?_⟩
    · rw [hassign]
      exact (hc.release hcol).pair (by rw [release_columnOf, if_neg (Ne.symm hri)]; exact hrow)
        (by rw [release_rowOf, if_pos rfl]) hx
    · rw [hassign]
      exact hreleased.pair hbest'
    · rw [hassign]
      exact (((hi.release hcol).perm (.swap _ _ _)).pair).perm (take_rows hj)

structure TakenUp (m : Signature n) (s : Sweep n) (i : Fin n) : Prop where
  consistent : s.assignment.Consistent m
  leastInRows : s.assignment.LeastInRows m
  free : s.assignment.FreeAre (i :: (s.pending ++ s.left))

theorem Sweeping.takenUp {pending : List (Fin n)} (h : s.Sweeping m) (hp : s.pending = i :: pending) :
    ({ s with pending } : Sweep n).TakenUp m i where
  consistent := h.consistent
  leastInRows := h.leastInRows
  free := by
    have := h.free
    rwa [hp] at this

theorem TakenUp.leave (h : s.TakenUp m i) : ({ s with left := i :: s.left } : Sweep n).Sweeping m :=
  ⟨h.consistent, h.leastInRows, h.free.perm List.perm_middle.symm⟩

theorem TakenUp.take {x : Int} (h : s.TakenUp m i) (hx : m.get i j = some x)
    (hbest : ∀ k y, m.get i k = some y → x - s.assignment.v.get j ≤ y - s.assignment.v.get k) :
    (s.take i j again).Sweeping m :=
  .take h.consistent h.free (fun r _ => h.leastInRows r) hx hbest

/-- The row takes a column that lowers its potential; only the row that held it may have relied on the old one. -/
theorem TakenUp.takePaying {x p : Int} (h : s.TakenUp m i) (hx : m.get i j = some x) (hp : p ≤ s.assignment.v.get j)
    (hbest : ∀ k y, m.get i k = some y → k ≠ j → x - p ≤ y - s.assignment.v.get k) :
    ({ s with assignment := s.assignment.setPotential j p }.take i j again).Sweeping m := by
  have hv : ∀ k, (s.assignment.setPotential j p).v.get k = if k = j then p else s.assignment.v.get k :=
    fun k => setPotential_v k
  refine .take h.consistent.setPotential ⟨h.free.nodup, h.free.mem_iff⟩ (fun r hr => ?_) hx fun k y hy => ?_
  · exact (h.leastInRows r).lower hp fun hcol => hr ((h.consistent.agree r j).mp hcol)
  · rw [hv, hv, if_pos rfl]
    by_cases hk : k = j
    · subst hk
      rw [hx] at hy
      cases hy
      rw [if_pos rfl]
    · rw [if_neg hk]
      exact hbest k y hy hk

inductive Stepped (m : Signature n) (s : Sweep n) : Sweep n → Prop
  | stay : s.pending = [] → Stepped m s s
  | leave {i : Fin n} {pending : List (Fin n)} : s.pending = i :: pending → (∀ j, m.get i j = none) →
      Stepped m s { s with pending, left := i :: s.left }
  | take {i j : Fin n} {pending : List (Fin n)} {x : Int} : s.pending = i :: pending → m.get i j = some x →
      (∀ k y, m.get i k = some y → x - s.assignment.v.get j ≤ y - s.assignment.v.get k) →
      Stepped m s (({ s with pending } : Sweep n).take i j false)
  | pay {i j : Fin n} {pending : List (Fin n)} {x p : Int} : s.pending = i :: pending → m.get i j = some x →
      p ≤ s.assignment.v.get j → (∀ k y, m.get i k = some y → k ≠ j → x - p ≤ y - s.assignment.v.get k) →
      Stepped m s (({ s with pending, assignment := s.assignment.setPotential j p } : Sweep n).take i j true)

theorem step_stepped (m : Signature n) (s : Sweep n) : Yields (s.step m) (s.Stepped m) := by
  unfold step
  cases hp : s.pending with
  | nil => exact .ok (.stay hp)
  | cons i pending =>
    refine (m.cheapest2_spec s.assignment.v i).bind fun best hbest => ?_
    cases best with
    | none => exact .pure (.leave hp hbest)
    | some c =>
      obtain ⟨x, hx, hxleast⟩ := hbest.column
      rw [Signature.mem_row_iff] at hx
      have hleast : ∀ k y, m.get i k = some y → c.least ≤ y - s.assignment.v.get k := fun k y hy =>
        hbest.least k y (Signature.mem_row_iff.mpr hy)
      have htake : s.Stepped m (({ s with pending } : Sweep n).take i c.column false) :=
        .take hp hx fun k y hy => hxleast ▸ hleast k y hy
      have hsecond := hbest.second
      dsimp only
      cases hs : c.second with
      | none => exact .pure htake
      | some e =>
        rw [hs] at hsecond
        obtain ⟨⟨z, hz, hze⟩, hmin⟩ := hsecond
        rw [Signature.mem_row_iff] at hz
        dsimp only
        split
        · -- the best column pays the difference to the second
          refine .bind (.fit rfl) fun gap hgap => .bind (.fit rfl) fun p hpay => .pure ?_
          refine .pay hp hx (by omega) fun k y hy hk => ?_
          have := hmin k y (Signature.mem_row_iff.mpr hy) hk
          omega
        · split
          · -- the second column is as good as the best
            refine .pure (.take hp hz fun k y hy => ?_)
            have := hleast k y hy
            omega
          · exact .pure htake

theorem Sweeping.stepped (h : s.Sweeping m) (hst : s.Stepped m t) : t.Sweeping m := by
  cases hst with
  | stay => exact h
  | leave hp => exact (h.takenUp hp).leave
  | take hp hx hbest => exact (h.takenUp hp).take hx hbest
  | pay hp hx hpay hbest => exact (h.takenUp hp).takePaying hx hpay hbest

theorem Stepped.measure_lt (hst : s.Stepped m t) (hs : s.pending ≠ []) : t.measure < s.measure := by
  have hless : ∀ {i : Fin n} {pending : List (Fin n)} (a : DualAssignment n) (left : List (Fin n)),
      s.pending = i :: pending → (⟨a, pending, left, s.budget⟩ : Sweep n).measure < s.measure := by
    intro i pending a left hp
    simp only [measure, hp, List.length_cons]
    omega
  cases hst with
  | stay hnil => exact absurd hnil hs
  | leave hp => exact hless _ _ hp
  | take hp => exact Nat.lt_of_le_of_lt take_measure (hless _ _ hp)
  | pay hp => exact Nat.lt_of_le_of_lt take_measure (hless _ _ hp)

theorem Sweeping.step (h : s.Sweeping m) :
    Yields (s.step m) fun t => t.Sweeping m ∧ (s.pending ≠ [] → t.measure < s.measure) :=
  (step_stepped m s).imp fun _ hst => ⟨h.stepped hst, hst.measure_lt⟩

/-! ## Whole sweeps -/

theorem run_of_done (hs : s.pending = []) : ∀ fuel, s.run m fuel = .ok s := by
  intro fuel
  induction fuel with
  | zero => rfl
  | succ fuel ih =>
    have hstep : s.step m = .ok s := by simp only [Sweep.step, hs]
    unfold Sweep.run
    rw [hstep]
    exact ih

theorem Sweeping.run : ∀ {fuel : Nat} {s : Sweep n}, s.Sweeping m → s.measure ≤ fuel →
    Yields (s.run m fuel) fun t => t.Sweeping m ∧ t.pending = [] := by
  intro fuel
  induction fuel with
  | zero =>
    intro s h hfuel
    refine .ok ⟨h, List.length_eq_zero_iff.mp ?_⟩
    unfold measure at hfuel
    omega
  | succ fuel ih =>
    intro s h hfuel
    by_cases hp : s.pending = []
    · rw [run_of_done hp]
      exact .ok ⟨h, hp⟩
    · unfold Sweep.run
      refine h.step.bind fun t ⟨ht, hlt⟩ => ih ht ?_
      have := hlt hp
      omega

end Sweep

theorem Reduced.rowReduction {a : DualAssignment n} {free : List (Fin n)} (h : Reduced m a free) :
    Yields (rowReduction m a free) fun r => Reduced m r.1 r.2 := by
  unfold SigmaMethod.rowReduction
  have hs : (⟨a, free, [], n⟩ : Sweep n).Sweeping m :=
    ⟨h.consistent, h.leastInRows, by simpa using h.free⟩
  refine (hs.run (Nat.le_refl _)).bind fun t ⟨ht, hp⟩ => .pure ⟨ht.consistent, ht.leastInRows, ?_⟩
  have := ht.free
  rw [hp, List.nil_append] at this
  exact this.perm t.left.reverse_perm.symm

theorem Reduced.rowReductions : ∀ {sweeps : Nat} {a : DualAssignment n} {free : List (Fin n)}, Reduced m a free →
    Yields (rowReductions m sweeps a free) fun r => Reduced m r.1 r.2 := by
  intro sweeps
  induction sweeps with
  | zero => exact fun h => .ok h
  | succ sweeps ih => exact fun h => h.rowReduction.bind fun r hr => ih hr

/-- **The reduction phases hand over a valid state.** -/
theorem reduction_spec (hcol : ∀ j, m.cheapest.get j ≠ none) (sweeps : Nat) :
    Yields (reduction m sweeps) fun r => Reduced m r.1 r.2 := by
  unfold reduction
  exact (columnReduction_spec hcol).bind fun o ho => (reductionTransfer_spec ho).bind fun r hr => hr.rowReductions

end SigmaMethod
