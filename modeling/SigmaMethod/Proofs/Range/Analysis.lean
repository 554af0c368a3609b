import SigmaMethod.Proofs.Offsets.Canonical
import SigmaMethod.Proofs.Range.Augment

/-!
# The range of an analysis

An analysis of `n` equations whose costs are of size `C` at most does not overflow if `(16 + 8 * sweeps) * n * C` is in
range. For the solver this puts its phases together. The potentials it ends with, moved up by `2 * C`, are offsets that
the fixed point stays below, so they bound all numbers after it as well.
-/

namespace SigmaMethod

variable {n : Nat} {m : Signature n} {σ : Equiv.Perm (Fin n)} {C lo K : Int} {c d u v : Fin n → Int}

/-! ## Reading the matching off -/

namespace DualAssignment

variable {a : DualAssignment n}

theorem tally_fits (hm : m.Roomy lo C) {v : Vector Int n} (hv : Between lo C v.get) (columns : List (Fin n)) :
    Fits (((List.finRange n).zip columns).foldlM (fun t (i, j) => Tally.add m v t i j) ⟨#[], 0⟩) fun _ => True := by
  refine Fits.imp (Fits.foldlM_done (I := fun done (t : Tally) =>
    -(done.length * C) ≤ t.cost ∧ t.cost ≤ done.length * C) (by simp) ?_) fun _ _ => trivial
  rintro done ⟨i, j⟩ t hdone ht
  have hlen : (done.length : Int) * C + C ≤ n * C := by
    have hle := hdone.length_le
    rw [List.length_append, List.length_singleton, List.length_zip, List.length_finRange] at hle
    have := mul_le_mul_of_nonneg_right (Int.ofNat_le.mpr (hle.trans (Nat.min_le_left ..))) hm.nonneg
    rwa [Nat.cast_succ, add_one_mul] at this
  have hdone0 : 0 ≤ (done.length : Int) * C := mul_nonneg (Int.natCast_nonneg _) hm.nonneg
  rw [List.length_append, List.length_singleton, Nat.cast_succ, add_one_mul]
  dsimp only
  unfold Tally.add Signature.pairCost
  cases hx : m.get i j with
  | none => exact .refuse
  | some x =>
    have hxC := hm.bounded.entry hx
    have := hm.floor
    have := hm.room
    refine .ok_bind (.fit_bind (hm.inRange hv hx) (.fit_bind ⟨by omega, by omega⟩ (.pure ?_)))
    dsimp only
    omega

theorem checkPotentials_fits {u : Array Int} {v : Vector Int n} (h : ∀ i j : Fin n, InRange (u.getD i 0 + v.get j)) :
    Fits (checkPotentials m u v) fun _ => True := by
  unfold checkPotentials
  refine Fits.forM ?_
  rintro ⟨i, j, x⟩ -
  refine .fit_bind (h i j) ?_
  split
  · exact .refuse
  · exact .pure trivial

theorem finish_fits (settings : Settings) (hc : a.Consistent m) (hf : a.FreeAre []) (hm : m.Roomy lo C)
    (hv : Between lo C a.v.get) : Fits (a.finish settings m) fun _ => True := by
  obtain ⟨σ, hcol, hrow, hσ⟩ := hc.exists_perm hf
  unfold finish
  rw [partners_eq hcol, partners_eq hrow]
  refine .ok_bind (.ok_bind ?_)
  refine ((tally_fits hm hv _).and (tally_spec hσ)).bind fun t ⟨_, hu, _⟩ => ?_
  dsimp only
  split
  · refine .bind (checkPotentials_fits fun i j => ?_) fun _ _ => .pure trivial
    obtain ⟨hm, hC, hlo, hroom⟩ := hm
    obtain ⟨x, hx⟩ := hσ i
    have hxC := hm.entry hx
    have hi := hv (σ i)
    have hj := hv j
    have := le_dimension_mul hC i
    have hui : t.u.getD i 0 = x - a.v.get (σ i) := by simp [hu, hx]
    rw [hui]
    exact ⟨by omega, by omega⟩
  · exact .pure trivial

end DualAssignment

/-! ## The solver -/

def solvedFloor (n sweeps : Nat) (C : Int) : Int := reducedFloor n sweeps C - 2 * (2 * (n * C) - C)

theorem Signature.solve_fits (settings : Settings) (hm : m.Bounded C) (hC : 0 ≤ C) (hn : C ≤ n * C)
    (hsize : 16 * (n * C) + 8 * (settings.sweeps * (n * C)) ≤ 2147483647) :
    Fits (m.solve settings) fun s => ∃ σ u v, s.Records m σ u v ∧ m.Supports u v ∧
      Between (solvedFloor n settings.sweeps C) C v := by
  have hsweeps : 0 ≤ (settings.sweeps : Int) * (n * C) :=
    mul_nonneg (Int.natCast_nonneg _) (mul_nonneg (Int.natCast_nonneg n) hC)
  have hfloor : solvedFloor n settings.sweeps C = -(6 * (n * C) - C + 4 * (settings.sweeps * (n * C))) := by
    unfold solvedFloor reducedFloor
    omega
  unfold solve
  split
  · exact .refuse
  · rename_i hline
    have hcol := cheapest_ne_none (Bool.eq_false_iff.mpr hline)
    have hreduction := reduction_fits hcol hm hC settings.sweeps (by unfold reducedFloor; omega)
    refine (hreduction.and (reduction_spec hcol settings.sweeps)).bind ?_
    rintro ⟨a, free⟩ ⟨hv, hr⟩
    have ha : a.Floored (solvedFloor n settings.sweeps C) C := by
      refine ⟨hv.lower (by unfold solvedFloor; omega), fun j _ => (le_of_eq ?_).trans (hv j).1⟩
      exact Int.sub_add_cancel _ _
    have hroomy : m.Roomy (solvedFloor n settings.sweeps C) C := ⟨hm, hC, by omega, by omega⟩
    refine ((ha.augmentAll_fits hroomy hr (Scratch.empty_wf n)).and
      (DualAssignment.augmentAll_spec hr.consistent hr.free (Scratch.empty_wf n))).bind
        fun b ⟨hbv, hb, hfree, hleast⟩ => ?_
    refine ((DualAssignment.finish_fits settings hb hfree hroomy hbv).and
      (DualAssignment.finish_spec settings hb hfree)).imp ?_
    rintro s ⟨-, σ, u, hs, hsupports⟩
    exact ⟨σ, u, b.v.get, hs, hsupports (hleast hr.leastInRows), hbv⟩

/-! ## The fixed point -/

namespace Offsets

theorem raise_fits (hm : m.Bounded C) {o : Offsets n} (hc : Between 0 K o.c.get) (hroom : K + C ≤ 2147483647) :
    Fits (o.raise m) fun _ => True := by
  unfold raise
  refine .bind (P := fun _ => True) (.foldlM trivial ?_) fun d _ => .pure trivial
  rintro ⟨i, j, x⟩ he d -
  have hx := hm.entry (Signature.mem_entries_iff.mp he)
  have hi := hc i
  exact .fit_bind ⟨by omega, by omega⟩ (.pure trivial)

theorem follow_fits (hσ : m.IsTransversal σ) (hm : m.Bounded C) {o : Offsets n} (hd : Between 0 K o.d.get)
    (hroom : K + C ≤ 2147483647) : Fits (o.follow (m.pairsOf σ)) fun _ => True := by
  unfold follow Signature.pairsOf
  rw [List.foldlM_map]
  refine .bind (P := fun _ => True) (.foldlM trivial fun i _ c _ => ?_) fun c _ => .pure trivial
  obtain ⟨x, hx⟩ := hσ i
  have hxC := hm.entry hx
  have hj := hd (σ i)
  dsimp only
  rw [hx, Option.getD_some]
  exact .fit_bind ⟨by omega, by omega⟩ (.pure trivial)

/-- Offsets that cover the entries and are tight on the matching bound all sweeps. -/
theorem settle_fits (hσ : m.IsTransversal σ) (hm : m.Bounded C) (hcov : m.Covers c d) (htight : m.Tight c d σ)
    (hc : ∀ i, c i ≤ K) (hd : ∀ j, d j ≤ K) (hroom : K + C ≤ 2147483647) : ∀ {fuel sweep : Nat} {o : Offsets n},
      o.Climbing m σ → Fits (settle m (m.pairsOf σ) fuel sweep o) fun _ => True := by
  intro fuel
  induction fuel with
  | zero => exact fun _ => .refuse
  | succ fuel ih =>
    intro sweep o h
    obtain ⟨hoc, hod⟩ := h.below c d hcov htight
    have hsweep : Fits (o.raise m >>= follow (m.pairsOf σ)) fun _ => True := by
      have hraise := raise_fits hm (fun i => ⟨h.equations i, (hoc i).trans (hc i)⟩) hroom
      refine (hraise.and (raise_spec m o)).bind fun r hr => ?_
      obtain ⟨-, -, hr⟩ := hr
      refine follow_fits hσ hm (fun j => ⟨?_, ?_⟩) hroom
      · exact (h.unknowns j).trans (hr.above j)
      · exact (hr.le_of_covers hcov hoc hod j).trans (hd j)
    unfold settle
    rw [← bind_assoc]
    refine (hsweep.and (sweep_spec hσ o)).bind fun r hr => ?_
    split
    · exact .pure trivial
    · exact ih (h.sweep hr.2)

end Offsets

theorem Signature.Supports.covers_of_between (h : m.Supports u v) (hσ : m.Meets u v σ) (hm : m.Bounded C)
    (hv : Between lo C v) : m.Covers (fun i => u i + 2 * C) (fun j => 2 * C - v j) ∧
      m.Tight (fun i => u i + 2 * C) (fun j => 2 * C - v j) σ ∧ ∀ i, u i + 2 * C ≤ 3 * C - lo := by
  have hu : ∀ i, -(2 * C) ≤ u i ∧ u i ≤ C - lo := by
    intro i
    have hx := hm.entry (hσ i)
    have hi := hv (σ i)
    omega
  refine ⟨⟨fun i => ?_, fun j => ?_, fun i j x hx => ?_⟩, fun i => ?_, fun i => ?_⟩
  · have := hu i
    omega
  · have hj := hv j
    have hx := hm.entry (hσ (σ.symm j))
    omega
  · have := h i j x hx
    omega
  · rw [hσ i, Option.some.injEq]
    dsimp only
    omega
  · have := hu i
    omega

theorem Signature.leastOffsets_fits (h : m.Supports u v) (hσ : m.Meets u v σ) (hm : m.Bounded C) (hC : 0 ≤ C)
    (hv : Between lo C v) (hroom : 4 * C - lo ≤ 2147483647) :
    Fits (m.leastOffsets (Array.ofFn fun i => (σ i).val)) fun s =>
      s.offsets.IsLeast m σ ∧ Between 0 (3 * C - lo) s.offsets.c.get ∧ Between 0 (3 * C - lo) s.offsets.d.get := by
  obtain ⟨hcov, htight, hu⟩ := h.covers_of_between hσ hm hv
  have hd : ∀ j, 2 * C - v j ≤ 3 * C - lo := fun j => by
    have := (hv j).1
    omega
  have hfits : Fits (m.leastOffsets (Array.ofFn fun i => (σ i).val)) fun _ => True := by
    unfold leastOffsets
    rw [Array.size_ofFn, if_neg (fun h => h rfl), mapM_matchedPair hσ.isTransversal]
    exact Offsets.settle_fits hσ.isTransversal hm hcov htight hu hd (by omega) Offsets.zero_climbing
  refine (hfits.and (leastOffsets_spec hσ.isTransversal)).imp fun s ⟨_, hleast, _⟩ => ?_
  obtain ⟨hle, hle'⟩ := hleast.least _ _ hcov htight
  exact ⟨hleast, fun i => ⟨hleast.covers.equations i, (hle i).trans (hu i)⟩,
    fun j => ⟨hleast.covers.unknowns j, (hle' j).trans (hd j)⟩⟩

/-! ## The answer -/

namespace Analysis

variable {a : Analysis}

theorem Records.gap_fits (h : a.Records m σ c d) (hc : Between 0 K c) (hd : Between 0 K d) (hK : K ≤ 2147483647)
    (i j : Fin n) : Fits (a.gap i j) fun _ => True := by
  have hi := hc i
  have hj := hd j
  unfold gap
  rw [h.equationOffsets, h.unknownOffsets]
  refine Fits.bind (P := (· = c i)) (.lookAt (by simp) (by simp)) ?_
  rintro _ rfl
  refine Fits.bind (P := (· = d j)) (.lookAt (by simp) (by simp)) ?_
  rintro _ rfl
  exact .fit ⟨by omega, by omega⟩ trivial

theorem Records.verify_fits (h : a.Records m σ c d) (hc : Between 0 K c) (hd : Between 0 K d) (hK : K ≤ 2147483647) :
    Fits (a.verify m) fun _ => True := by
  unfold verify
  rw [h.sizes]
  refine .ok_bind ?_
  refine .bind (P := fun _ => True) (.forM ?_) fun _ _ => .forM ?_
  · rintro ⟨i, j, x⟩ -
    refine (h.gap_fits hc hd hK i j).bind fun y _ => ?_
    split
    · exact .refuse
    · exact .pure trivial
  · rintro ⟨j, i⟩ he
    obtain ⟨hi, rfl⟩ := h.eq_of_mem_zipIdx he
    dsimp only
    split
    · refine (h.gap_fits hc hd hK ⟨i, hi⟩ (σ ⟨i, hi⟩)).bind fun y _ => ?_
      split
      · exact .refuse
      · exact .pure trivial
    · exact .refuse

theorem Records.exists_structuralIndex (h : a.Records m σ c d) (hc : Between 0 K c) (hK0 : 0 ≤ K)
    (hK : K < 2147483647) : ∃ k, a.structuralIndex = .ok k := by
  have hmost : 0 ≤ a.c.toList.max?.getD 0 ∧ a.c.toList.max?.getD 0 ≤ K := by
    cases hmax : a.c.toList.max? with
    | none => exact ⟨Int.le_refl 0, hK0⟩
    | some y =>
      have hy := List.max?_mem hmax
      rw [h.equationOffsets, Array.mem_toList_iff, Array.mem_ofFn] at hy
      obtain ⟨i, rfl⟩ := hy
      exact hc i
  unfold structuralIndex
  dsimp only
  split
  · exact ⟨_, fit_eq_ok_iff.mpr ⟨⟨by omega, by omega⟩, rfl⟩⟩
  · exact ⟨_, rfl⟩

end Analysis

theorem Signature.analysisOf_fits (settings : Settings) {s : Matching} (hs : s.Records m σ u v) (h : m.Supports u v)
    (hm : m.Bounded C) (hC : 0 ≤ C) (hlo : lo ≤ 0) (hv : Between lo C v) (hroom : 4 * C - lo < 2147483647) :
    Fits (m.analysisOf settings s) fun a => ∃ k, a.structuralIndex = .ok k := by
  unfold analysisOf
  rw [hs.columnOf]
  refine (leastOffsets_fits h hs.meets hm hC hv (by omega)).bind fun t ⟨hleast, hc, hd⟩ => ?_
  have hrecords := hs.chooses.records t.offsets
  have hindex := hrecords.exists_structuralIndex hc (by omega) (by omega)
  dsimp only
  split
  · exact (hrecords.verify_fits hc hd (by omega)).bind fun _ _ => .pure hindex
  · exact .pure hindex

/-- **An analysis of moderate size never overflows**: it ends with an answer that has a structural index, or with the
refusal of a singular problem. -/
theorem Signature.analyse_in_range (settings : Settings) (m : Signature n) (C : Int) (hn : 1 ≤ n) (hm : m.Bounded C)
    (hsize : (16 + 8 * (settings.sweeps : Int)) * n * C ≤ 2147483647) :
    ((∃ s, m.solve settings = .ok s) ∨ m.solve settings = refuse m.singularity) ∧
      ((∃ a k, m.analyse settings = .ok a ∧ a.structuralIndex = .ok k) ∨
        m.analyse settings = refuse m.singularity) := by
  -- if there is no cost at all, `C` may be negative
  have hm' : m.Bounded (max C 0) := fun i j x hx => (hm i j x hx).trans (le_max_left C 0)
  have hsize' : 16 * (n * max C 0) + 8 * (settings.sweeps * (n * max C 0)) ≤ 2147483647 := by
    rcases le_total C 0 with hC | hC
    · simp [max_eq_right hC]
    · rw [max_eq_left hC]
      rwa [mul_assoc, add_mul, mul_assoc] at hsize
  have hC : 0 ≤ max C 0 := le_max_right C 0
  have hCn := le_dimension_mul hC (⟨0, hn⟩ : Fin n)
  have hsweeps : 0 ≤ (settings.sweeps : Int) * (n * max C 0) :=
    mul_nonneg (Int.natCast_nonneg _) (mul_nonneg (Int.natCast_nonneg n) hC)
  have hsolve := m.solve_fits settings hm' hC hCn hsize'
  have hanalyse : Fits (m.analyse settings) fun a => ∃ k, a.structuralIndex = .ok k := by
    refine hsolve.bind fun s ⟨σ, u, v, hs, hsupports, hv⟩ => ?_
    refine analysisOf_fits settings hs hsupports hm' hC ?_ hv ?_
    · unfold solvedFloor reducedFloor
      omega
    · unfold solvedFloor reducedFloor
      omega
  constructor
  · rcases hsolve.cases (m.solve_spec settings) with ⟨s, hs, -⟩ | ⟨r, hr, hsing⟩
    · exact .inl ⟨s, hs⟩
    · exact .inr (hsing.1 ▸ hr)
  · rcases hanalyse.cases (m.analyse_spec settings) with ⟨a, ha, k, hk⟩ | ⟨r, hr, hsing⟩
    · exact .inl ⟨a, k, ha, hk⟩
    · exact .inr (hsing.1 ▸ hr)

theorem Signature.analyse_in_range_pendulum :
    1 ≤ 3 ∧ pendulum.Bounded 2 ∧ (16 + 8 * (2 : Int)) * 3 * 2 ≤ 2147483647 ∧
      ∃ a k, pendulum.analyse {} = .ok a ∧ a.structuralIndex = .ok k := by
  have hm : pendulum.Bounded 2 := by
    have hall : ∀ i j, (pendulum.get i j).all fun x => |x| ≤ 2 := by decide
    intro i j x hx
    simpa [hx] using hall i j
  obtain ⟨-, hok | hsing⟩ := analyse_in_range {} pendulum 2 (by decide) hm (by decide)
  · exact ⟨by decide, hm, by decide, hok⟩
  · exact absurd hsing (analyse_ne_refuse {} pendulum_isTransversal _)

end SigmaMethod
