import SigmaMethod.Proofs.Offsets.StaleStart
import SigmaMethod.Proofs.Range.Analysis

/-!
# The check is a certificate

The check looks at one entry after the other, and what it accepts are potentials. Those that a transversal meets prove
it optimal, and every transversal of the same cost meets them as well. So a record that passes is optimal, whoever wrote
it, and goes on to pass when its matching is replaced by another of the same cost. The records that an analysis writes
pass: their offsets are least, and the difference of two natural numbers in range is in range.
-/

namespace SigmaMethod

variable {n : Nat} {m : Signature n} {σ τ : Equiv.Perm (Fin n)} {a : Analysis}

/-! ## What passes the check -/

namespace Analysis

def equationPotential (a : Analysis) (i : Fin n) : Int := a.c.getD i 0

def unknownPotential (a : Analysis) (j : Fin n) : Int := -a.d.getD j 0

theorem gap_eq {i j : Fin n} {y : Int} (h : a.gap i j = .ok y) : y = a.equationPotential i + a.unknownPotential j := by
  unfold gap at h
  simp only [bind_eq_ok_iff, lookAt_eq_ok_iff, fit_eq_ok_iff] at h
  obtain ⟨c, hc, d, hd, -, rfl⟩ := h
  simp [equationPotential, unknownPotential, Array.getD_eq_getD_getElem?, hc, hd, Int.sub_eq_add_neg]

structure Feasible (a : Analysis) (m : Signature n) : Prop where
  sizes : a.c.size = n ∧ a.d.size = n ∧ a.rowOf.size = n
  entries : ∀ i j x, m.get i j = some x → ∃ y, a.gap i j = .ok y ∧ y ≤ x

theorem Feasible.supports (h : a.Feasible m) : m.Supports a.equationPotential a.unknownPotential := by
  intro i j x hx
  obtain ⟨y, hy, hle⟩ := h.entries i j x hx
  rwa [gap_eq hy] at hle

theorem verify_eq_ok_iff (hcolumn : a.columnOf = Array.ofFn fun i => (σ i).val) :
    a.verify m = .ok () ↔ a.Feasible m ∧ ∀ i, ∃ x, m.get i (σ i) = some x ∧ a.gap i (σ i) = .ok x := by
  have hdone : (pure () : Outcome Unit) = .ok () := rfl
  have hsizes : (∀ size ∈ [a.c.size, a.d.size, a.columnOf.size, a.rowOf.size], size = n) ↔
      a.c.size = n ∧ a.d.size = n ∧ a.rowOf.size = n := by
    simp [hcolumn]
  unfold verify
  simp only [bind_eq_ok_iff, checkSizes_eq_ok_iff, hsizes, forM_eq_ok_iff, Prod.forall, Signature.mem_entries_iff,
    ite_refuse_eq_ok_iff, hdone, not_lt, and_true]
  simp only [hcolumn, mem_zipIdx_ofFn]
  constructor
  · rintro ⟨_, hsizes, _, hentries, hpairs⟩
    refine ⟨⟨hsizes, hentries⟩, fun i => ?_⟩
    have hpair := hpairs _ _ ⟨i, rfl, rfl⟩
    rw [m.cost?_eq] at hpair
    cases hget : m.get i (σ i) with
    | none =>
      rw [hget] at hpair
      cases hpair
    | some x =>
      rw [hget] at hpair
      exact ⟨x, rfl, by simpa [bind_eq_ok_iff, hdone] using hpair⟩
  · rintro ⟨⟨hsizes, hentries⟩, hpairs⟩
    refine ⟨(), hsizes, (), hentries, ?_⟩
    rintro _ _ ⟨i, rfl, rfl⟩
    obtain ⟨x, hget, hgap⟩ := hpairs i
    rw [m.cost?_eq, hget]
    simp [hgap]

theorem Feasible.verify_eq_ok_iff (h : a.Feasible m) (hcolumn : a.columnOf = Array.ofFn fun i => (σ i).val) :
    a.verify m = .ok () ↔ m.Meets a.equationPotential a.unknownPotential σ := by
  rw [Analysis.verify_eq_ok_iff hcolumn, and_iff_right h]
  refine forall_congr' fun i => ⟨fun ⟨x, hx, hgap⟩ => by rw [hx, gap_eq hgap], fun hmeets => ⟨_, hmeets, ?_⟩⟩
  obtain ⟨y, hy, -⟩ := h.entries i (σ i) _ hmeets
  rw [hy, gap_eq hy]

theorem isOptimal_of_verify (hcolumn : a.columnOf = Array.ofFn fun i => (σ i).val) (h : a.verify m = .ok ()) :
    m.IsOptimal σ ∧ ∀ τ : Equiv.Perm (Fin n),
      { a with columnOf := Array.ofFn fun i => (τ i).val }.verify m = .ok () ↔
        m.IsTransversal τ ∧ m.costOf τ = m.costOf σ := by
  obtain ⟨hfeasible, -⟩ := (verify_eq_ok_iff hcolumn).mp h
  have hmeets := (hfeasible.verify_eq_ok_iff hcolumn).mp h
  refine ⟨hfeasible.supports.isOptimal hmeets, fun τ => ?_⟩
  have hreplaced : { a with columnOf := Array.ofFn fun i => (τ i).val }.Feasible m :=
    ⟨hfeasible.sizes, hfeasible.entries⟩
  rw [hreplaced.verify_eq_ok_iff rfl]
  constructor
  · intro hτ
    exact ⟨hτ.isTransversal, hτ.costOf_eq.trans hmeets.costOf_eq.symm⟩
  · rintro ⟨hτ, hcost⟩
    exact hreplaced.supports.meets hτ (hcost.trans hmeets.costOf_eq).le

end Analysis

/-! ## The records of an analysis -/

namespace Offsets

variable {o r : Offsets n} {pairs : List (Pair n)}

def Within (o : Offsets n) : Prop := (∀ i, InRange (o.c.get i)) ∧ ∀ j, InRange (o.d.get j)

theorem zero_within : (zero n).Within := by
  have hzero : InRange 0 := by decide
  constructor <;> intro i <;> simpa [zero, Vector.get] using hzero

theorem inRange_put {v : Vector Int n} {x : Int} (hv : ∀ i, InRange (v.get i)) (hx : InRange x) (i j : Fin n) :
    InRange ((v.put i x).get j) := by
  rw [Vector.get_put]
  split
  · exact hx
  · exact hv j

theorem Within.raise (h : o.Within) (hr : o.raise m = .ok r) : r.Within := by
  unfold Offsets.raise at hr
  obtain ⟨d, hd, hr⟩ := bind_eq_ok_iff.mp hr
  cases hr
  refine ⟨h.1, foldlM_invariant (I := fun d : Vector Int n => ∀ j, InRange (d.get j)) ?_ h.2 hd⟩
  rintro ⟨i, j, x⟩ - d d' hd hstep
  obtain ⟨y, hfit, hstep⟩ := bind_eq_ok_iff.mp hstep
  cases hstep
  obtain ⟨hy, rfl⟩ := fit_eq_ok_iff.mp hfit
  refine inRange_put hd ?_ j
  rcases max_choice (d.get j) (o.c.get i - x) with hmax | hmax
  · rw [hmax]
    exact hd j
  · rwa [hmax]

theorem Within.follow (h : o.Within) (hr : o.follow pairs = .ok r) : r.Within := by
  unfold Offsets.follow at hr
  obtain ⟨c, hc, hr⟩ := bind_eq_ok_iff.mp hr
  cases hr
  refine ⟨foldlM_invariant (I := fun c : Vector Int n => ∀ i, InRange (c.get i)) ?_ h.1 hc, h.2⟩
  intro p _ c c' hc hstep
  obtain ⟨y, hfit, hstep⟩ := bind_eq_ok_iff.mp hstep
  cases hstep
  obtain ⟨hy, rfl⟩ := fit_eq_ok_iff.mp hfit
  exact inRange_put hc hy p.row

theorem Within.settle {s : Settled n} : ∀ {fuel sweep : Nat} {o : Offsets n}, o.Within →
    SigmaMethod.settle m pairs fuel sweep o = .ok s → s.offsets.Within := by
  intro fuel
  induction fuel with
  | zero => exact fun _ hs => nomatch hs
  | succ fuel ih =>
    intro sweep o h hs
    unfold SigmaMethod.settle at hs
    obtain ⟨raised, hraised, hs⟩ := bind_eq_ok_iff.mp hs
    obtain ⟨next, hnext, hs⟩ := bind_eq_ok_iff.mp hs
    have hwithin := (h.raise hraised).follow hnext
    split at hs
    · cases hs
      exact hwithin
    · exact ih hwithin hs

end Offsets

theorem Signature.leastOffsets_within {columnOf : Array Nat} {s : Settled n} (h : m.leastOffsets columnOf = .ok s) :
    s.offsets.Within := by
  unfold leastOffsets at h
  obtain ⟨-, h⟩ := ite_refuse_eq_ok_iff.mp h
  obtain ⟨pairs, -, h⟩ := bind_eq_ok_iff.mp h
  exact Offsets.zero_within.settle h

/-- Offsets are natural numbers, so their differences are in range where they are, and the check has an answer. -/
theorem Signature.verify_of_analysisOf {settings : Settings} {s : Matching} (hs : s.Chooses m σ)
    (h : m.analysisOf settings s = .ok a) : a.verify m = .ok () := by
  unfold analysisOf at h
  rw [hs.columnOf] at h
  obtain ⟨t, ht, h⟩ := bind_eq_ok_iff.mp h
  have hleast := ((leastOffsets_spec hs.transversal).answer ht).1
  obtain ⟨hc, hd⟩ := leastOffsets_within ht
  have hrecords := hs.records t.offsets
  have ha : a = ⟨t.offsets.c.toArray, t.offsets.d.toArray, Array.ofFn fun i => (σ i).val, s.rowOf, s.cost, none⟩ := by
    dsimp only at h
    split at h
    · obtain ⟨_, -, h⟩ := bind_eq_ok_iff.mp h
      cases h
      rfl
    · cases h
      rfl
  subst ha
  have hfits := hrecords.verify_fits (K := 2147483647) (fun i => ⟨hleast.covers.equations i, (hc i).2⟩)
    (fun j => ⟨hleast.covers.unknowns j, (hd j).2⟩) (Int.le_refl _)
  cases hfits.cases (hrecords.verify_spec hleast.covers hleast.tight) with
  | inl hok =>
    obtain ⟨_, hok, -⟩ := hok
    exact hok
  | inr hrefused =>
    obtain ⟨_, -, hrefused⟩ := hrefused
    exact hrefused.elim

theorem Signature.verify_of_analyse {settings : Settings} (h : m.analyse settings = .ok a) : a.verify m = .ok () := by
  unfold analyse at h
  obtain ⟨s, hs, h⟩ := bind_eq_ok_iff.mp h
  obtain ⟨σ, u, v, hrecords, -⟩ := (m.solve_spec settings).answer hs
  exact verify_of_analysisOf hrecords.chooses h

theorem Edited.verify_of_analyse {settings : Settings} {ed : Edited} (h : ed.analyse settings = .ok a) :
    a.verify ed.matrix = .ok () := by
  obtain ⟨s, σ, hchooses, h⟩ := chooses_of_analyse h
  exact Signature.verify_of_analysisOf hchooses h

theorem Placements.verify_of_analyse {settings : Settings} {ps : Placements} {outer : Signature n}
    (hexact : ∀ p ∈ ps.toList, p.component.Exact) (h : ps.analyse settings outer = .ok a) :
    ∃ s x, outer.solve settings = .ok s ∧ ps.expand outer s = .ok x ∧ a.verify x.matrix = .ok () := by
  obtain ⟨s, x, hs, hx, t, σ, b, hchooses, hb, rfl⟩ := chooses_of_analyse hexact h
  have hverify := Signature.verify_of_analysisOf hchooses hb
  exact ⟨s, x, hs, hx, hverify⟩

/-- **A record that passes the check is optimal, and every analysis writes one that passes.** -/
theorem Analysis.verify_certifies :
    (∀ {n : Nat} (m : Signature n) (a : Analysis) (σ : Equiv.Perm (Fin n)),
      a.columnOf = (Array.ofFn fun i => (σ i).val) → a.verify m = .ok () →
      m.IsOptimal σ ∧ ∀ τ : Equiv.Perm (Fin n), { a with columnOf := Array.ofFn fun i => (τ i).val }.verify m = .ok () ↔
        m.IsTransversal τ ∧ m.costOf τ = m.costOf σ) ∧
    (∀ {n : Nat} (m : Signature n) (settings : Settings) (a : Analysis),
      m.analyse settings = .ok a → a.verify m = .ok ()) ∧
    (∀ (ed : Edited) (settings : Settings) (a : Analysis), ed.analyse settings = .ok a → a.verify ed.matrix = .ok ()) ∧
    ∀ {n : Nat} (outer : Signature n) (ps : Placements) (settings : Settings) (a : Analysis),
      (∀ p ∈ ps.toList, ∃ b : ComponentBuilder, b.Built ∧ b.build = .ok p.component) →
      ps.analyse settings outer = .ok a →
      ∃ s x, outer.solve settings = .ok s ∧ ps.expand outer s = .ok x ∧ a.verify x.matrix = .ok () := by
  refine ⟨fun m a σ hcolumn h => isOptimal_of_verify hcolumn h, fun m settings a h => Signature.verify_of_analyse h,
    fun ed settings a h => Edited.verify_of_analyse h, fun outer ps settings a hbuilt h => ?_⟩
  have hexact : ∀ p ∈ ps.toList, p.component.Exact := fun p hp => Component.exact_of_built (hbuilt p hp)
  exact Placements.verify_of_analyse hexact h

/-- The length may be solved for either coordinate, and the record says which. -/
theorem Analysis.verify_certifies_pendulum_and_chain :
    (∃ a, Signature.pendulum.analyse {} = .ok a ∧ a.columnOf = #[0, 2, 1] ∧ a.verify Signature.pendulum = .ok () ∧
      Signature.pendulum.IsOptimal (Equiv.swap 1 2) ∧
      { a with columnOf := #[1, 0, 2] }.verify Signature.pendulum = .ok () ∧
      Signature.pendulum.costOf (Equiv.swap 0 1) = Signature.pendulum.costOf (Equiv.swap 1 2)) ∧
    (∃ ed a, Edited.ofEdit Signature.pendulum stalePendulum Edit.pendulumEdit = .ok ed ∧
      ed.analyse {} = .ok a ∧ a.verify ed.matrix = .ok ()) ∧
    ∃ a, Placements.chain.analyse {} Placements.chainOuter = .ok a ∧
      ∃ s x, Placements.chainOuter.solve {} = .ok s ∧ Placements.chain.expand Placements.chainOuter s = .ok x ∧
        a.verify x.matrix = .ok () := by
  obtain ⟨hcertifies, hanalyse, hedited, hplaced⟩ := verify_certifies
  refine ⟨?_, ?_, ?_⟩
  · let a : Analysis := ⟨#[2, 0, 0], #[2, 2, 0], #[0, 2, 1], #[0, 2, 1], -2, none⟩
    have ha : Signature.pendulum.analyse {} = .ok a := by decide +kernel
    have hverify := hanalyse Signature.pendulum {} a ha
    obtain ⟨hoptimal, hreplaced⟩ := hcertifies Signature.pendulum a (Equiv.swap 1 2) (by decide) hverify
    have hother : { a with columnOf := #[1, 0, 2] }.verify Signature.pendulum = .ok () := by decide +kernel
    have hswap : #[1, 0, 2] = (Array.ofFn fun i => (Equiv.swap (0 : Fin 3) 1 i).val) := by decide
    rw [hswap] at hother
    exact ⟨a, ha, rfl, hverify, hoptimal, hswap ▸ hother, ((hreplaced _).mp hother).2⟩
  · let a : Analysis := ⟨#[2, 0, 0], #[2, 0, 0], #[0, 1, 2], #[0, 1, 2], 0, none⟩
    have hrun : (Edited.ofEdit Signature.pendulum stalePendulum Edit.pendulumEdit).map
        (fun ed => decide (ed.analyse {} = .ok a)) = .ok true := by
      decide +kernel
    obtain ⟨ed, hed, ha⟩ := map_eq_ok_iff.mp hrun
    have ha := of_decide_eq_true ha
    exact ⟨ed, a, hed, ha, hedited ed {} a ha⟩
  · have hok : (Placements.chain.analyse {} Placements.chainOuter).isOk = true := by decide +kernel
    obtain ⟨a, ha⟩ := isOk_iff.mp hok
    exact ⟨a, ha, hplaced _ _ {} a Placements.chain_built ha⟩

end SigmaMethod
