import SigmaMethod.Proofs.Component.Expand
import SigmaMethod.Proofs.Offsets.Canonical

/-!
# Compressed analysis

Optimal transversals of an outer problem are written out as optimal transversals of the problem with its components
written out, and without the former there are none of the latter. So the analysis of the outer problem, with its
components written out afterwards, gives the offsets of the whole problem.
-/

namespace SigmaMethod

namespace Placements

variable {n : Nat} {ps : Placements} {outer : Signature n} {σ : Equiv.Perm (Fin n)}
variable {m m' : Signature (n + privates ps.toList)} {τ : Equiv.Perm (Fin (n + privates ps.toList))}

theorem Prepared.placed_of_built {done : List Nat} (h : ps.Prepared done outer)
    (hbuilt : ∀ p ∈ ps.toList, ∃ b : ComponentBuilder, b.Built ∧ b.build = .ok p.component)
    (hdistinct : (ps.toList.map (·.surrogate)).Nodup) (hall : ∀ k < ps.size, k ∈ done) : ps.Placed outer := by
  exact h.placed (fun p hp => Component.exact_of_built (hbuilt p hp)) hdistinct hall

namespace Placed

theorem exists_transversal (h : ps.Placed outer) (hm : m.costRows = ps.writtenOut outer) (hτ : m.IsTransversal τ) :
    ∃ σ, outer.IsTransversal σ ∧ outer.costOf σ ≤ m.costOf τ := by
  have hpicks := hτ.picks
  rw [hm] at hpicks
  rw [← Signature.picksOf_cost]
  exact exists_outer h hpicks Signature.picksOf_columns

theorem isOptimal (h : ps.Placed outer) (hm : m.costRows = ps.writtenOut outer) (hσ : outer.IsOptimal σ)
    (hτ : m.IsTransversal τ) (hcost : m.costOf τ = outer.costOf σ) : m.IsOptimal τ where
  transversal := hτ
  least τ' hτ' := by
    obtain ⟨σ', hσ', hle⟩ := h.exists_transversal hm hτ'
    rw [hcost]
    exact (hσ.least σ' hσ').trans hle

end Placed

def Solved (ps : Placements) (outer : Signature n) (settings : Settings) (a : Analysis) : Prop :=
  ∃ m : Signature (n + privates ps.toList), m.costRows = ps.writtenOut outer ∧ a.Solves m ∧
    ∃ s, outer.solve settings = .ok s ∧ a.cost = s.cost

/-- An optimal transversal of the problem written out that no potentials prove optimal. There is none, but only the
search of the whole problem shows that. -/
def Unproved (ps : Placements) (outer : Signature n) : Prop :=
  ∃ (m : Signature (n + privates ps.toList)) (τ : Equiv.Perm (Fin (n + privates ps.toList))),
    m.costRows = ps.writtenOut outer ∧ m.IsOptimal τ ∧ ¬ ∃ u v, m.Supports u v ∧ m.Meets u v τ

theorem analyse_spec (settings : Settings) (h : ps.Placed outer) :
    Delivers (ps.analyse settings outer) (ps.Solved outer settings)
      (fun r => outer.Singular r ∨ ps.Unproved outer) := by
  unfold analyse
  refine ((outer.solve_spec settings).attach.mono (fun _ hs => hs) fun _ hr => .inl hr).bind
    fun s ⟨hs, σ, u, v, hrecords, hsupports⟩ => ?_
  refine (expand_spec h hrecords.chooses).widen.bind fun y ⟨m, τ, layout, hm, hτ, hcost, hy⟩ => ?_
  subst hy
  have hoptimal := h.isOptimal hm (hsupports.isOptimal hrecords.meets) hτ hcost
  have hchooses : Matching.Chooses (m := m)
      ⟨m.costOf τ, Array.ofFn fun i => (τ i).val, Array.ofFn fun j => (τ.symm j).val, #[], #[]⟩ τ :=
    ⟨rfl, rfl, rfl, hτ⟩
  have hanalysis := (Signature.analysisOf_spec settings hchooses).mono (fun _ ha => ha)
    fun r hr => show outer.Singular r ∨ ps.Unproved outer from .inr ⟨m, τ, hm, hoptimal, hr⟩
  refine hanalysis.bind fun a ⟨τ', c, d, hrecords', htight, hcanonical⟩ => .pure ?_
  refine ⟨m, hm, ⟨τ', c, d, ⟨hrecords'.columnOf, hrecords'.rowOf, hrecords'.cost, hrecords'.equationOffsets,
    hrecords'.unknownOffsets⟩, htight, hcanonical⟩, s, hs, ?_⟩
  change a.cost = s.cost
  rw [hrecords'.cost, hrecords.cost, ← hcost]
  exact (hcanonical.covers.isOptimal htight).costOf_eq hoptimal

theorem not_unproved {a : Analysis} (hm : m.costRows = ps.writtenOut outer) (h : a.Solves m) : ¬ ps.Unproved outer := by
  rintro ⟨m', τ, hm', hτ, hno⟩
  obtain ⟨τ', c, d, -, htight, hcanonical⟩ := h
  have hget := Signature.get_eq_of_costRows (hm'.trans hm.symm)
  have hcovers := hcanonical.covers.congr hget
  have hcost : ∑ i, c i - ∑ j, d j = m'.costOf τ := by
    rw [htight.value, ← Signature.costOf_congr hget]
    exact ((hcanonical.covers.isOptimal htight).congr hget).costOf_eq hτ
  exact hno ⟨_, _, hcovers.supports, (hcovers.tight hτ.transversal hcost).meets⟩

/-- **Compressed analysis is the analysis of the problem with its components written out.** -/
theorem analyse_writtenOut (settings settings' : Settings) {done : List Nat} {E : Signature (n + privates ps.toList)}
    (hbuilt : ∀ p ∈ ps.toList, ∃ b : ComponentBuilder, b.Built ∧ b.build = .ok p.component)
    (hdistinct : (ps.toList.map (·.surrogate)).Nodup) (hprepared : ps.Prepared done outer)
    (hall : ∀ k < ps.size, k ∈ done)
    (hE : E.costRows = ps.writtenOut outer) (h : ps.analyse settings outer ≠ .error .overflow)
    (h' : E.analyse settings' ≠ .error .overflow) :
    ((∃ a, ps.analyse settings outer = .ok a) ↔ ∃ a, E.analyse settings' = .ok a) ∧
      (∀ a a', ps.analyse settings outer = .ok a → E.analyse settings' = .ok a' →
        a.c = a'.c ∧ a.d = a'.d ∧ a.cost = a'.cost) ∧
      (∀ a, ps.analyse settings outer = .ok a → ∃ s, outer.solve settings = .ok s ∧ a.cost = s.cost) ∧
      ((∀ σ, ¬ E.IsTransversal σ) → ps.analyse settings outer = refuse outer.singularity) := by
  have hplaced := hprepared.placed_of_built hbuilt hdistinct hall
  have hspec := analyse_spec settings hplaced
  have hspec' := E.analyse_spec settings'
  -- a transversal of the whole problem comes from one of the outer problem, so that one is not singular
  have hsingular : ∀ r, outer.Singular r → ∀ σ, ¬ E.IsTransversal σ := by
    intro r hr σ hσ
    obtain ⟨σ', hσ', -⟩ := hplaced.exists_transversal hE hσ
    exact hr.2 σ' hσ'
  have htransversal : ∀ a, ps.Solved outer settings a → ∃ σ, E.IsTransversal σ := by
    rintro a ⟨m, hm, ⟨σ, c, d, -, htight, -⟩, -⟩
    exact ⟨σ, htight.isTransversal.congr (Signature.get_eq_of_costRows (hE.trans hm.symm))⟩
  refine ⟨⟨fun ⟨a, ha⟩ => ?_, fun ⟨a', ha'⟩ => ?_⟩, fun a a' ha ha' => ?_, fun a ha => ?_, fun hnone => ?_⟩
  · obtain ⟨σ, hσ⟩ := htransversal a (hspec.answer ha)
    rcases hspec'.cases h' with ⟨a', ha', -⟩ | ⟨r, -, hr⟩
    · exact ⟨a', ha'⟩
    · exact absurd hσ (hr.2 σ)
  · have hsolves := hspec'.answer ha'
    rcases hspec.cases h with ⟨a, ha, -⟩ | ⟨r, -, hr | hr⟩
    · exact ⟨a, ha⟩
    · obtain ⟨σ, c, d, -, htight, -⟩ := hsolves
      exact absurd htight.isTransversal (hsingular r hr σ)
    · exact absurd hr (not_unproved hE hsolves)
  · obtain ⟨m, hm, hsolves, -⟩ := hspec.answer ha
    exact (hspec'.answer ha').agree hsolves (Signature.get_eq_of_costRows (hm.trans hE.symm))
  · obtain ⟨-, -, -, hs⟩ := hspec.answer ha
    exact hs
  · rcases hspec.cases h with ⟨a, ha, hsolved⟩ | ⟨r, hr, hsing | ⟨m, τ, hm, hτ, -⟩⟩
    · obtain ⟨σ, hσ⟩ := htransversal a hsolved
      exact absurd hσ (hnone σ)
    · rw [hr, hsing.1]
    · exact absurd (hτ.transversal.congr (Signature.get_eq_of_costRows (hE.trans hm.symm))) (hnone τ)

/-! ## A chain of integrators -/

/-- The private variable is the integral of the first public one, and the second balances the first. -/
def integrator : Component where
  publics := 2
  privates := 1
  entries := [(0, 0, -1), (0, 1, 0), (1, 1, 0), (1, 2, 0)]
  matchings := #[some [0, 1], some [0, 2]]
  exitCosts := #[some (-1), some (-1)]

theorem exists_integrator : ∃ b : ComponentBuilder, b.Built ∧ b.build = .ok integrator := by
  refine ⟨_, .setPublic 1 1 0 (.setPublic 1 0 0 (.setPublic 0 0 0 (.setPrivate 0 0 1 (.empty 2 1)))), ?_⟩
  decide +kernel

/-- Two integrators that share the second variable. -/
def chain : Placements := #[⟨integrator, 0, 1⟩, ⟨integrator, 1, 2⟩]

def chainOuter : Signature 3 :=
  ((Signature.ofIncidences 3 [⟨0, 0, 0⟩, ⟨1, 0, 1⟩, ⟨1, 1, 1⟩, ⟨2, 1, 1⟩, ⟨2, 2, 1⟩]).toOption).getD (.empty 3)

theorem chain_prepared : chain.Prepared [1, 0] chainOuter := by
  have hstart : chain.Prepared [] ((Signature.empty 3).put 0 0 0) := by
    refine .start fun p hp l => ?_
    simp only [chain, List.mem_cons, List.not_mem_nil, or_false] at hp
    rcases hp with rfl | rfl <;> simp [Signature.cost?_put]
  exact .publics 1 (.publics 0 hstart rfl) rfl

theorem chain_built : ∀ p ∈ chain.toList, ∃ b : ComponentBuilder, b.Built ∧ b.build = .ok p.component := by
  intro p hp
  simp only [chain, List.mem_cons, List.not_mem_nil, or_false] at hp
  rcases hp with rfl | rfl
  · exact exists_integrator
  · exact exists_integrator

theorem analyse_writtenOut_chain :
    ∃ E : Signature (3 + privates chain.toList), E.costRows = chain.writtenOut chainOuter ∧
      ∃ a a', chain.analyse {} chainOuter = .ok a ∧ E.analyse {} = .ok a' ∧
        a.c = a'.c ∧ a.d = a'.d ∧ a.cost = a'.cost := by
  have hdistinct : (chain.toList.map (·.surrogate)).Nodup := by decide
  have hall : ∀ k < chain.size, k ∈ [1, 0] := by decide
  have hE := (chain_prepared.placed_of_built chain_built hdistinct hall).costRows_ofRows
  have h : chain.analyse {} chainOuter ≠ .error .overflow := by decide +kernel
  have h' : (Signature.ofRows (3 + privates chain.toList) (chain.writtenOut chainOuter)).analyse {} ≠
      .error .overflow := by
    decide +kernel
  obtain ⟨hiff, hagree, -⟩ := analyse_writtenOut {} {} chain_built hdistinct chain_prepared hall hE h h'
  have hok : (chain.analyse {} chainOuter).isOk = true := by decide +kernel
  obtain ⟨a, ha⟩ := isOk_iff.mp hok
  obtain ⟨a', ha'⟩ := hiff.mp ⟨a, ha⟩
  exact ⟨_, hE, a, a', ha, ha', hagree a a' ha ha'⟩

end Placements

end SigmaMethod
