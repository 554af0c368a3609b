import SigmaMethod.Proofs.Matching.Solver

/-!
# What the reduction phases hand over

The phases run one step at a time: a column chooses, a row passes slack on, a free row takes a column. No step takes the
row of a column away, and no row step adds to the rows that are pending or left. So the matched columns only grow, a
sweep leaves no more rows free than it was given, and it ends when rows and budget are used up.
-/

namespace SigmaMethod

variable {n : Nat} {m : Signature n}

/-! ## Loops -/

section loop

variable {α β : Type} {R : β → β → Prop} {f : β → α → Outcome β} {b c : β} {l : List α}

/-- The loop runs through, and its states at any two moments are related. -/
def Throughout (R : β → β → Prop) (f : β → α → Outcome β) (b : β) (l : List α) : Prop :=
  ∀ done next rest, done ++ next ++ rest = l → ∃ s t, done.foldlM f b = .ok s ∧ next.foldlM f s = .ok t ∧ R s t

theorem throughout_of_steps (refl : ∀ s, R s s) (trans : ∀ s t u, R s t → R t u → R s u)
    (step : ∀ s a t, f s a = .ok t → R s t) (h : l.foldlM f b = .ok c) : Throughout R f b l := by
  intro done next rest hl
  rw [← hl, List.foldlM_append, bind_eq_ok_iff] at h
  obtain ⟨t, ht, -⟩ := h
  rw [List.foldlM_append, bind_eq_ok_iff] at ht
  obtain ⟨s, hs, ht⟩ := ht
  exact ⟨s, t, hs, ht, foldlM_invariant (I := R s) (fun a _ u v hu huv => trans s u v hu (step u a v huv)) (refl s) ht⟩

end loop

namespace DualAssignment

variable {a b c : DualAssignment n} {i j : Fin n}

def KeepsColumns (a b : DualAssignment n) : Prop := ∀ j, (a.rowOf.get j).isSome → (b.rowOf.get j).isSome

theorem KeepsColumns.refl (a : DualAssignment n) : a.KeepsColumns a := fun _ h => h

theorem KeepsColumns.trans (hab : a.KeepsColumns b) (hbc : b.KeepsColumns c) : a.KeepsColumns c :=
  fun j h => hbc j (hab j h)

theorem KeepsColumns.of_rowOf_eq (h : b.rowOf = a.rowOf) : a.KeepsColumns b := fun j hj => by rwa [h]

theorem keepsColumns_pair (a : DualAssignment n) (i j : Fin n) : a.KeepsColumns (a.pair i j) := by
  intro k hk
  rw [pair_rowOf]
  split
  · rfl
  · exact hk

theorem keepsColumns_of_choose {o p : Offers n} (h : o.choose m j = .ok p) :
    o.assignment.KeepsColumns p.assignment := by
  unfold Offers.choose at h
  cases hj : m.cheapest.get j with
  | none =>
    rw [hj] at h
    cases h
  | some i =>
    rw [hj] at h
    obtain ⟨x, -, h⟩ := bind_eq_ok_iff.mp h
    cases h
    have hset : o.assignment.KeepsColumns (o.assignment.setPotential j x) := .of_rowOf_eq rfl
    dsimp only
    split
    · exact hset.trans (keepsColumns_pair _ i j)
    · exact hset

theorem keepsColumns_of_transfer (h : a.transfer m i = .ok b) : a.KeepsColumns b := by
  unfold transfer at h
  cases hi : a.columnOf.get i with
  | none =>
    rw [hi] at h
    cases h
    exact .refl a
  | some j =>
    rw [hi] at h
    obtain ⟨slack, -, h⟩ := bind_eq_ok_iff.mp h
    cases slack with
    | none =>
      cases h
      exact .refl a
    | some s =>
      obtain ⟨x, -, h⟩ := bind_eq_ok_iff.mp h
      cases h
      exact .of_rowOf_eq rfl

end DualAssignment

/-! ## Row steps -/

namespace Sweep

open DualAssignment (KeepsColumns)

variable {s t u : Sweep n} {i j : Fin n} {k l : Nat}

structure Onward (s t : Sweep n) : Prop where
  columns : s.assignment.KeepsColumns t.assignment
  rows : t.pending.length + t.left.length ≤ s.pending.length + s.left.length

theorem Onward.refl (s : Sweep n) : s.Onward s := ⟨.refl _, Nat.le_refl _⟩

theorem Onward.trans (hst : s.Onward t) (htu : t.Onward u) : s.Onward u :=
  ⟨hst.columns.trans htu.columns, Nat.le_trans htu.rows hst.rows⟩

/-- A pending row takes a column. The row that it displaces, if any, is the only one to come back. -/
theorem onward_take {a : DualAssignment n} {pending : List (Fin n)} {again : Bool} (hp : s.pending = i :: pending)
    (ha : a.rowOf = s.assignment.rowOf) :
    s.Onward (({ s with pending, assignment := a } : Sweep n).take i j again) := by
  have hcolumns : s.assignment.KeepsColumns (a.pair i j) :=
    (KeepsColumns.of_rowOf_eq ha).trans (a.keepsColumns_pair i j)
  unfold take
  dsimp only
  cases a.rowOf.get j with
  | none => exact ⟨hcolumns, by simp only [hp, List.length_cons]; omega⟩
  | some r =>
    dsimp only
    split
    · exact ⟨hcolumns, by simp only [hp, List.length_cons, Nat.le_refl]⟩
    · exact ⟨hcolumns, by simp only [hp, List.length_cons]; omega⟩

theorem Stepped.onward (hst : s.Stepped m t) : s.Onward t := by
  cases hst with
  | stay => exact .refl s
  | leave hp => exact ⟨.refl _, by simp only [hp, List.length_cons]; omega⟩
  | take hp => exact onward_take hp rfl
  | pay hp => exact onward_take hp rfl

theorem run_succ (m : Signature n) (s : Sweep n) (k : Nat) : s.run m (k + 1) = s.step m >>= fun t => t.run m k := rfl

theorem run_add (m : Signature n) (s : Sweep n) (k l : Nat) : s.run m (k + l) = s.run m k >>= fun t => t.run m l := by
  induction k generalizing s with
  | zero => rw [Nat.zero_add]; rfl
  | succ k ih =>
    rw [Nat.succ_add, run_succ, run_succ]
    cases s.step m with
    | error e => rfl
    | ok t => exact ih t

theorem run_onward (h : s.run m k = .ok t) : s.Onward t := by
  induction k generalizing s with
  | zero =>
    cases h
    exact .refl _
  | succ k ih =>
    rw [run_succ] at h
    obtain ⟨s', hstep, hrun⟩ := bind_eq_ok_iff.mp h
    exact ((step_stepped m s).answer hstep).onward.trans (ih hrun)

/-- The sweep takes `k` row steps, with a row pending before each of them. -/
def EndsAfter (m : Signature n) (s : Sweep n) (k : Nat) (t : Sweep n) : Prop :=
  s.run m k = .ok t ∧ t.pending = [] ∧ ∀ l < k, ∃ u, s.run m l = .ok u ∧ u.pending ≠ []

theorem endsAfter_zero (h : s.pending = []) : s.EndsAfter m 0 s :=
  ⟨rfl, h, fun l hl => absurd hl (Nat.not_lt_zero l)⟩

theorem Sweeping.exists_endsAfter (h : s.Sweeping m) (hrun : s.run m k = .ok t) (hdone : t.pending = []) :
    ∃ l ≤ s.measure, s.EndsAfter m l t := by
  induction k generalizing s with
  | zero =>
    cases hrun
    exact ⟨0, Nat.zero_le _, endsAfter_zero hdone⟩
  | succ k ih =>
    by_cases hp : s.pending = []
    · rw [run_of_done hp] at hrun
      cases hrun
      exact ⟨0, Nat.zero_le _, endsAfter_zero hdone⟩
    · rw [run_succ] at hrun
      obtain ⟨s', hstep, hrun⟩ := bind_eq_ok_iff.mp hrun
      obtain ⟨hs', hless⟩ := h.step.answer hstep
      -- the step has used up a row or some of the budget, which leaves the rest of the measure to `s'`
      have hsucc : ∀ l, s.run m (l + 1) = s'.run m l := fun l => by rw [run_succ, hstep, ok_bind]
      obtain ⟨l, hl, hends, -, hbefore⟩ := ih hs' hrun
      refine ⟨l + 1, Nat.lt_of_le_of_lt hl (hless hp), (hsucc l).trans hends, hdone, fun k hk => ?_⟩
      cases k with
      | zero => exact ⟨s, rfl, hp⟩
      | succ k =>
        rw [hsucc]
        exact hbefore k (Nat.lt_of_succ_lt_succ hk)

theorem EndsAfter.onward (h : s.EndsAfter m k t) {a b : Nat} (hab : a ≤ b) :
    ∃ u v, s.run m a = .ok u ∧ s.run m b = .ok v ∧ u.Onward v := by
  obtain ⟨hrun, hdone, hbefore⟩ := h
  -- after its end a sweep stays where it is
  have hall : ∀ l, ∃ u, s.run m l = .ok u := by
    intro l
    by_cases hl : l < k
    · obtain ⟨u, hu, -⟩ := hbefore l hl
      exact ⟨u, hu⟩
    · obtain ⟨d, rfl⟩ := Nat.exists_eq_add_of_le (Nat.not_lt.mp hl)
      rw [run_add, hrun]
      exact ⟨t, run_of_done hdone d⟩
  obtain ⟨u, hu⟩ := hall a
  obtain ⟨v, hv⟩ := hall b
  obtain ⟨d, rfl⟩ := Nat.exists_eq_add_of_le hab
  have hrest : u.run m d = .ok v := by
    rw [run_add, hu] at hv
    exact hv
  exact ⟨u, v, hu, hv, run_onward hrest⟩

end Sweep

/-! ## Sweeps -/

def Sweep.enter (before : DualAssignment n × List (Fin n)) : Sweep n := ⟨before.1, before.2, [], n⟩

structure Swept (m : Signature n) (before after : DualAssignment n × List (Fin n)) : Prop where
  sweep : rowReduction m before.1 before.2 = .ok after
  ends : ∃ k ≤ before.2.length + n, ∃ t, (Sweep.enter before).EndsAfter m k t ∧ after = (t.assignment, t.left.reverse)
  columns : ∀ k l, k ≤ l → ∃ s t, (Sweep.enter before).run m k = .ok s ∧ (Sweep.enter before).run m l = .ok t ∧
    s.assignment.KeepsColumns t.assignment
  free : after.2.length ≤ before.2.length

theorem Reduced.swept {before after : DualAssignment n × List (Fin n)} (h : Reduced m before.1 before.2)
    (hafter : SigmaMethod.rowReduction m before.1 before.2 = .ok after) : Swept m before after := by
  have hsweeping : (Sweep.enter before).Sweeping m := ⟨h.consistent, h.leastInRows, by simpa [Sweep.enter] using h.free⟩
  have hrun := hafter
  unfold SigmaMethod.rowReduction at hrun
  obtain ⟨t, ht, hleft⟩ := bind_eq_ok_iff.mp hrun
  cases hleft
  obtain ⟨-, hdone⟩ := (hsweeping.run (Nat.le_refl _)).answer ht
  obtain ⟨k, hk, hends⟩ := hsweeping.exists_endsAfter ht hdone
  have honward := Sweep.run_onward ht
  refine ⟨hafter, ⟨k, hk, t, hends, rfl⟩, fun a b hab => ?_, ?_⟩
  · obtain ⟨u, v, hu, hv, huv⟩ := hends.onward hab
    exact ⟨u, v, hu, hv, huv.columns⟩
  · have hrows := honward.rows
    rw [hdone] at hrows
    simpa using hrows

theorem rowReductions_succ (k : Nat) (a : DualAssignment n) (free : List (Fin n)) :
    rowReductions m (k + 1) a free = rowReductions m k a free >>= fun r => rowReduction m r.1 r.2 := by
  have hfirst : ∀ k a free, rowReductions m (k + 1) a free =
      rowReduction m a free >>= fun r => rowReductions m k r.1 r.2 := fun _ _ _ => rfl
  induction k generalizing a free with
  | zero =>
    rw [hfirst]
    cases h : rowReduction m a free with
    | error e => exact h.symm
    | ok r => exact h.symm
  | succ k ih =>
    rw [hfirst, hfirst]
    cases rowReduction m a free with
    | error e => rfl
    | ok r => exact ih r.1 r.2

theorem reduction_succ (m : Signature n) (k : Nat) :
    reduction m (k + 1) = reduction m k >>= fun r => rowReduction m r.1 r.2 := by
  unfold reduction
  cases columnReduction m with
  | error e => rfl
  | ok o =>
    change (reductionTransfer m o >>= _) = (reductionTransfer m o >>= _) >>= _
    cases reductionTransfer m o with
    | error e => rfl
    | ok r => exact rowReductions_succ k r.1 r.2

theorem exists_reduction {sweeps k : Nat} {r : DualAssignment n × List (Fin n)} (h : reduction m sweeps = .ok r)
    (hk : k ≤ sweeps) : ∃ r, reduction m k = .ok r := by
  induction sweeps generalizing r with
  | zero => exact ⟨r, Nat.le_zero.mp hk ▸ h⟩
  | succ sweeps ih =>
    rcases Nat.lt_or_eq_of_le hk with hlt | rfl
    · rw [reduction_succ] at h
      obtain ⟨r', hr', -⟩ := bind_eq_ok_iff.mp h
      exact ih hr' (Nat.le_of_lt_succ hlt)
    · exact ⟨r, h⟩

/-- **The reduction phases hand over a valid state**, and no step on the way takes the row of a column away. -/
theorem Signature.reduction_hands_over {sweeps : Nat} (hlines : m.hasEmptyLine = false)
    (hno : reduction m sweeps ≠ .error .overflow) :
    (∃ o first, columnReduction m = .ok o ∧ reductionTransfer m o = .ok first ∧ reduction m 0 = .ok first ∧
      Throughout (fun o p => o.assignment.KeepsColumns p.assignment) (Offers.choose m) ⟨.zero n, Vector.replicate n 0⟩
        (List.finRange n).reverse ∧
      Throughout DualAssignment.KeepsColumns (DualAssignment.transfer m) o.assignment
        ((List.finRange n).filter fun i => o.count.get i = 1)) ∧
    (∀ k ≤ sweeps, ∃ a free, reduction m k = .ok (a, free) ∧ a.Consistent m ∧ a.LeastInRows m ∧ a.FreeAre free) ∧
    ∀ k < sweeps, ∃ before after, reduction m k = .ok before ∧ reduction m (k + 1) = .ok after ∧
      Swept m before after := by
  have hcol := cheapest_ne_none hlines
  obtain ⟨r, hr, -⟩ := (reduction_spec hcol sweeps).exists_answer hno fun _ h => h
  have hreduced : ∀ k ≤ sweeps, ∃ r, reduction m k = .ok r ∧ Reduced m r.1 r.2 := by
    intro k hk
    obtain ⟨r', hr'⟩ := exists_reduction hr hk
    exact ⟨r', hr', (reduction_spec hcol k).answer hr'⟩
  refine ⟨?_, fun k hk => ?_, fun k hk => ?_⟩
  · obtain ⟨first, hfirst, -⟩ := hreduced 0 (Nat.zero_le _)
    have hphases := hfirst
    unfold reduction at hphases
    obtain ⟨o, ho, hphases⟩ := bind_eq_ok_iff.mp hphases
    obtain ⟨r', htransfer, hphases⟩ := bind_eq_ok_iff.mp hphases
    cases hphases
    have hloop := htransfer
    unfold reductionTransfer at hloop
    obtain ⟨a, ha, -⟩ := bind_eq_ok_iff.mp hloop
    refine ⟨o, _, ho, htransfer, hfirst, ?_, ?_⟩
    · exact throughout_of_steps (fun _ => .refl _) (fun _ _ _ => .trans)
        (fun _ _ _ => DualAssignment.keepsColumns_of_choose) ho
    · exact throughout_of_steps .refl (fun _ _ _ => .trans) (fun _ _ _ => DualAssignment.keepsColumns_of_transfer) ha
  · obtain ⟨⟨a, free⟩, hk', hvalid⟩ := hreduced k hk
    exact ⟨a, free, hk', hvalid.consistent, hvalid.leastInRows, hvalid.free⟩
  · obtain ⟨before, hbefore, hvalid⟩ := hreduced k (Nat.le_of_lt hk)
    obtain ⟨after, hafter, -⟩ := hreduced (k + 1) hk
    have hsweep : rowReduction m before.1 before.2 = .ok after := by
      rw [reduction_succ, hbefore] at hafter
      exact hafter
    exact ⟨before, after, hbefore, hafter, hvalid.swept hsweep⟩

/-- Each row shares its columns with the two others. -/
def Signature.ring : Signature 3 :=
  ((ofIncidences 3 [⟨0, 0, 1⟩, ⟨0, 2, 0⟩, ⟨1, 0, 1⟩, ⟨1, 1, 0⟩, ⟨2, 1, 3⟩, ⟨2, 2, 1⟩]).toOption).getD (.empty 3)

/-- The free row displaces the second, that one the third, and then all rows have columns. -/
theorem Signature.reduction_hands_over_ring :
    ring.hasEmptyLine = false ∧ reduction ring 1 ≠ .error .overflow ∧
      (∃ a free, reduction ring 1 = .ok (a, free) ∧ a.Consistent ring ∧ a.LeastInRows ring ∧ a.FreeAre free) ∧
      ∃ before after, reduction ring 0 = .ok before ∧ reduction ring 1 = .ok after ∧ Swept ring before after ∧
        before.2 = [1] ∧ after.2 = [] := by
  have hlines : ring.hasEmptyLine = false := by decide +kernel
  have hlists : (reduction ring 0).toOption.map (·.2) = some [1] ∧ (reduction ring 1).toOption.map (·.2) = some [] := by
    decide +kernel
  have hno : reduction ring 1 ≠ .error .overflow := by
    intro h
    rw [h] at hlists
    cases hlists.2
  obtain ⟨-, hvalid, hswept⟩ := reduction_hands_over hlines hno
  obtain ⟨before, after, hbefore, hafter, hsweep⟩ := hswept 0 (by decide)
  rw [hbefore, hafter] at hlists
  simp only [Except.toOption, Option.map_some, Option.some.injEq] at hlists
  exact ⟨hlines, hno, hvalid 1 (Nat.le_refl 1), before, after, hbefore, hafter, hsweep, hlists⟩

end SigmaMethod
