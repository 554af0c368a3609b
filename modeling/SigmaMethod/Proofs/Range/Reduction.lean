import Mathlib.Algebra.Order.Group.Abs
import Mathlib.Algebra.Order.Ring.Int
import Mathlib.Data.Fintype.Card
import SigmaMethod.Proofs.Fits
import SigmaMethod.Proofs.Matching.Sweep

/-!
# The range of the reduction phases

If no cost exceeds `C` in size, no potential rises above `C`, and each transfer and each step of a sweep lowers the
least potential by `2 * C` at most: what it writes is another potential plus one entry less another. The number of steps
bounds the potentials after all phases, and on the way every number fits that the bound leaves room for.
-/

namespace SigmaMethod

variable {n : Nat} {m : Signature n} {C lo : Int}

def Signature.Bounded (m : Signature n) (C : Int) : Prop := ∀ i j x, m.get i j = some x → |x| ≤ C

theorem Signature.Bounded.entry (h : m.Bounded C) {i j : Fin n} {x : Int} (hx : m.get i j = some x) : -C ≤ x ∧ x ≤ C :=
  abs_le.mp (h i j x hx)

def Between (lo hi : Int) (v : Fin n → Int) : Prop := ∀ j, lo ≤ v j ∧ v j ≤ hi

theorem Between.lower {lo' hi : Int} {v : Fin n → Int} (h : Between lo hi v) (hlo : lo' ≤ lo) : Between lo' hi v :=
  fun j => ⟨hlo.trans (h j).1, (h j).2⟩

theorem Between.setPotential {a : DualAssignment n} {hi x : Int} (h : Between lo hi a.v.get) (hlo : lo ≤ x)
    (hhi : x ≤ hi) (j : Fin n) : Between lo hi (a.setPotential j x).v.get := by
  intro k
  rw [DualAssignment.setPotential_v]
  split
  · exact ⟨hlo, hhi⟩
  · exact h k

theorem Signature.Bounded.inRange (hm : m.Bounded C) {v : Vector Int n} (hv : Between lo C v.get)
    (hroom : 4 * C - lo ≤ 2147483647) {i j : Fin n} {x : Int} (hx : m.get i j = some x) : InRange (x - v.get j) := by
  have hx := hm.entry hx
  have hj := hv j
  exact ⟨by omega, by omega⟩

/-! ## Columns choose rows -/

theorem Offers.choose_fits (hm : m.Bounded C) {o : Offers n} (h : Between (-C) C o.assignment.v.get) (j : Fin n) :
    Fits (o.choose m j) fun o => Between (-C) C o.assignment.v.get := by
  unfold choose
  cases m.cheapest.get j with
  | none => exact .refuse
  | some i =>
    refine Fits.bind (P := fun x => -C ≤ x ∧ x ≤ C) ?_ fun x hx => .pure ?_
    · unfold Signature.pairCost
      cases hx : m.get i j with
      | none => exact .refuse
      | some x => exact .ok (hm.entry hx)
    · have hset := h.setPotential hx.1 hx.2 j
      dsimp only
      split
      · exact hset
      · exact hset

theorem columnReduction_fits (hm : m.Bounded C) (hC : 0 ≤ C) :
    Fits (columnReduction m) fun o => Between (-C) C o.assignment.v.get := by
  unfold columnReduction
  refine Fits.foldlM ?_ fun j _ o ho => Offers.choose_fits hm ho j
  intro j
  simp [DualAssignment.zero, Vector.get, hC]

/-! ## Rows pass slack on -/

theorem Signature.slack_fits (hm : m.Bounded C) {v : Vector Int n} (hv : Between lo C v.get)
    (hroom : 4 * C - lo ≤ 2147483647) (i j : Fin n) :
    Fits (m.slack v i j) fun best => ∀ s, best = some s → s ≤ C - lo := by
  unfold slack
  refine Fits.foldlM (fun s hs => nomatch hs) ?_
  rintro ⟨k, x⟩ he best hbest
  have hentry := mem_row_iff.mp (List.mem_of_mem_filter he)
  have hx := hm.entry hentry
  have hk := hv k
  have hle : x - v.get k ≤ C - lo := by omega
  refine .fit_bind (hm.inRange hv hroom hentry) (.pure fun s hs => ?_)
  cases best with
  | none =>
    cases hs
    exact hle
  | some y =>
    cases hs
    exact (Int.min_le_left ..).trans hle

namespace DualAssignment

variable {a : DualAssignment n} {done : List (Fin n)} {i : Fin n}

/-- A row that passes its slack on has a column that is worth its entry. -/
theorem Transferred.transfer_fits (h : a.Transferred m done) (hi : i ∉ done) (hm : m.Bounded C) (hC : 0 ≤ C)
    (hv : Between lo C a.v.get) (hroom : 4 * C - lo ≤ 2147483647) :
    Fits (a.transfer m i) fun b => Between (lo - 2 * C) C b.v.get := by
  have hlower : Between (lo - 2 * C) C a.v.get := hv.lower (by omega)
  unfold DualAssignment.transfer
  cases hcol : a.columnOf.get i with
  | none => exact .ok hlower
  | some j =>
    refine ((m.slack_fits hm hv hroom i j).and (m.slack_spec (h.nonneg i))).bind fun best ⟨hle, hbest⟩ => ?_
    cases best with
    | none => exact .pure hlower
    | some s =>
      have hs := hle s rfl
      have hs0 := (hbest s rfl).1
      have hj := hm.entry (h.tight i j hcol hi)
      have := hv j
      exact .fit_bind ⟨by omega, by omega⟩ (.pure (hlower.setPotential (by omega) (by omega) j))

end DualAssignment

theorem Offers.Chosen.reductionTransfer_fits {o : Offers n} (h : o.Chosen m (List.finRange n).reverse)
    (hm : m.Bounded C) (hC : 0 ≤ C) (hv : Between lo C o.assignment.v.get)
    (hroom : 4 * C - (lo - 2 * (n * C)) ≤ 2147483647) :
    Fits (reductionTransfer m o) fun r => Between (lo - 2 * (n * C)) C r.1.v.get := by
  unfold reductionTransfer
  have hsingle : ((List.finRange n).filter fun i => o.count.get i = 1).Nodup := (List.nodup_finRange n).filter _
  have hcount : ∀ done, done <+: ((List.finRange n).filter fun i => o.count.get i = 1) →
      (done.length : Int) * C ≤ n * C := by
    intro done hdone
    have hlen := (hsingle.sublist hdone.sublist).length_le_card
    rw [Fintype.card_fin] at hlen
    exact mul_le_mul_of_nonneg_right (Int.ofNat_le.mpr hlen) hC
  refine Fits.bind (P := fun a => Between (lo - 2 * (n * C)) C a.v.get) ?_ fun a ha => .pure ha
  refine (Fits.foldlM_done (I := fun done a => DualAssignment.Transferred m a done ∧
    Between (lo - 2 * (done.length * C)) C a.v.get) ⟨h.transferred, by simpa using hv⟩ ?_).imp fun a ha =>
    ha.2.lower (by have := hcount _ List.prefix_rfl; omega)
  rintro done i a hdone ⟨ha, hav⟩
  have hi := notMem_of_prefix_snoc hsingle hdone
  have hlen := hcount done ((List.prefix_append done [i]).trans hdone)
  refine ((ha.transfer_fits hi hm hC hav (by omega)).and (ha.transfer hi)).imp fun b ⟨hb, hbt, _⟩ => ⟨hbt, ?_⟩
  refine hb.lower ?_
  rw [List.length_append, List.length_singleton, Nat.cast_succ, add_one_mul]
  omega

/-! ## Rows displace rows -/

theorem Signature.cheapest2_fits (hm : m.Bounded C) {v : Vector Int n} (hv : Between lo C v.get)
    (hroom : 4 * C - lo ≤ 2147483647) (i : Fin n) : Fits (m.cheapest2 v i) fun _ => True := by
  have hfit : ∀ j x, (j, x) ∈ (m.rows.get i).entries → InRange (x - v.get j) := fun j x he =>
    hm.inRange hv hroom (mem_row_iff.mp he)
  unfold cheapest2
  split
  · exact .ok trivial
  · rename_i j x rest hcons
    rw [hcons] at hfit
    refine .fit_bind (hfit j x List.mem_cons_self) ?_
    refine .bind (P := fun _ => True) (.foldlM trivial ?_) fun c _ => .pure trivial
    rintro ⟨k, y⟩ he c -
    exact .fit_bind (hfit k y (List.mem_cons_of_mem _ he)) (.pure trivial)

namespace Sweep

variable {s : Sweep n}

theorem take_v {i j : Fin n} {again : Bool} : (s.take i j again).assignment.v = s.assignment.v := by
  unfold take
  cases s.assignment.rowOf.get j with
  | none => rfl
  | some r =>
    dsimp only
    split
    · rfl
    · rfl

/-- What a column pays in a step is the difference of two reduced costs, one of them its own. -/
theorem step_fits (hm : m.Bounded C) (hC : 0 ≤ C) (hv : Between lo C s.assignment.v.get)
    (hroom : 4 * C - lo ≤ 2147483647) : Fits (s.step m) fun t => Between (lo - 2 * C) C t.assignment.v.get := by
  have hlower : Between (lo - 2 * C) C s.assignment.v.get := hv.lower (by omega)
  unfold Sweep.step
  cases s.pending with
  | nil => exact .ok hlower
  | cons i pending =>
    refine ((m.cheapest2_fits hm hv hroom i).and (m.cheapest2_spec s.assignment.v i)).bind fun best ⟨_, hbest⟩ => ?_
    cases best with
    | none => exact .pure hlower
    | some c =>
      obtain ⟨x, hx, hleast⟩ := hbest.column
      have hsecond := hbest.second
      dsimp only
      cases hs : c.second with
      | none => exact .pure (take_v.symm ▸ hlower)
      | some e =>
        rw [hs] at hsecond
        obtain ⟨⟨y, hy, hsecond⟩, -⟩ := hsecond
        have hxC := hm.entry (Signature.mem_row_iff.mp hx)
        have hyC := hm.entry (Signature.mem_row_iff.mp hy)
        have hcolumn := hv c.column
        have hother := hv e.1
        dsimp only
        split
        · refine .fit_bind ⟨by omega, by omega⟩ (.fit_bind ⟨by omega, by omega⟩ (.pure ?_))
          rw [take_v]
          exact hlower.setPotential (by omega) (by omega) c.column
        · split
          · exact .pure (take_v.symm ▸ hlower)
          · exact .pure (take_v.symm ▸ hlower)

theorem run_fits (hm : m.Bounded C) (hC : 0 ≤ C) : ∀ {fuel : Nat} {lo : Int} {s : Sweep n},
    Between lo C s.assignment.v.get → 4 * C - (lo - 2 * (fuel * C)) ≤ 2147483647 →
      Fits (s.run m fuel) fun t => Between (lo - 2 * (fuel * C)) C t.assignment.v.get := by
  intro fuel
  induction fuel with
  | zero =>
    intro lo s hv _
    exact .ok (by simpa using hv)
  | succ fuel ih =>
    intro lo s hv hroom
    have hstep : ((fuel + 1 : Nat) : Int) * C = fuel * C + C := by rw [Nat.cast_succ, add_one_mul]
    have hfuel : 0 ≤ (fuel : Int) * C := mul_nonneg (Int.natCast_nonneg fuel) hC
    rw [hstep] at hroom
    unfold Sweep.run
    refine (step_fits hm hC hv (by omega)).bind fun t ht => (ih ht (by omega)).imp fun u hu => hu.lower ?_
    rw [hstep]
    omega

end Sweep

theorem Reduced.rowReduction_fits {a : DualAssignment n} {free : List (Fin n)} (h : Reduced m a free)
    (hm : m.Bounded C) (hC : 0 ≤ C) (hv : Between lo C a.v.get) (hroom : 4 * C - (lo - 4 * (n * C)) ≤ 2147483647) :
    Fits (SigmaMethod.rowReduction m a free) fun r => Between (lo - 4 * (n * C)) C r.1.v.get := by
  have hmeasure : ((⟨a, free, [], n⟩ : Sweep n).measure : Int) * C ≤ 2 * (n * C) := by
    have hlen := h.free.nodup.length_le_card
    rw [Fintype.card_fin] at hlen
    have := mul_le_mul_of_nonneg_right (Int.ofNat_le.mpr hlen) hC
    simp only [Sweep.measure]
    push_cast
    rw [add_mul]
    omega
  unfold SigmaMethod.rowReduction
  refine (Sweep.run_fits hm hC hv (by omega)).bind fun t ht => .pure (ht.lower ?_)
  omega

theorem Reduced.rowReductions_fits (hm : m.Bounded C) (hC : 0 ≤ C) : ∀ {sweeps : Nat} {lo : Int} {a : DualAssignment n}
    {free : List (Fin n)}, Reduced m a free → Between lo C a.v.get →
      4 * C - (lo - 4 * (sweeps * (n * C))) ≤ 2147483647 →
        Fits (SigmaMethod.rowReductions m sweeps a free) fun r =>
          Between (lo - 4 * (sweeps * (n * C))) C r.1.v.get := by
  intro sweeps
  induction sweeps with
  | zero =>
    intro lo a free _ hv _
    exact .ok (by simpa using hv)
  | succ sweeps ih =>
    intro lo a free h hv hroom
    have hstep : ((sweeps + 1 : Nat) : Int) * (n * C) = sweeps * (n * C) + n * C := by rw [Nat.cast_succ, add_one_mul]
    have hrest : 0 ≤ (sweeps : Int) * (n * C) :=
      mul_nonneg (Int.natCast_nonneg sweeps) (mul_nonneg (Int.natCast_nonneg n) hC)
    rw [hstep] at hroom
    unfold SigmaMethod.rowReductions
    refine ((h.rowReduction_fits hm hC hv (by omega)).and h.rowReduction).bind fun r ⟨hrv, hr⟩ => ?_
    refine (ih hr hrv (by omega)).imp fun t ht => ht.lower ?_
    rw [hstep]
    omega

def reducedFloor (n sweeps : Nat) (C : Int) : Int := -(2 * (n * C) + C + 4 * (sweeps * (n * C)))

/-- **All numbers of the reduction phases fit.** -/
theorem reduction_fits (hcol : ∀ j, m.cheapest.get j ≠ none) (hm : m.Bounded C) (hC : 0 ≤ C) (sweeps : Nat)
    (hroom : 4 * C - reducedFloor n sweeps C ≤ 2147483647) :
    Fits (reduction m sweeps) fun r => Between (reducedFloor n sweeps C) C r.1.v.get := by
  have hn : 0 ≤ (n : Int) * C := mul_nonneg (Int.natCast_nonneg n) hC
  have hsweeps : 0 ≤ (sweeps : Int) * (n * C) := mul_nonneg (Int.natCast_nonneg sweeps) hn
  unfold reducedFloor at hroom ⊢
  unfold reduction
  refine ((columnReduction_fits hm hC).and (columnReduction_spec hcol)).bind fun o ⟨hov, ho⟩ => ?_
  refine ((ho.reductionTransfer_fits hm hC hov (by omega)).and (reductionTransfer_spec ho)).bind fun r ⟨hrv, hr⟩ => ?_
  exact (hr.rowReductions_fits hm hC hrv (by omega)).imp fun t ht => ht.lower (by omega)

end SigmaMethod
