import SigmaMethod.Proofs.Matching.Duality
import SigmaMethod.Proofs.Offsets.Canonical

/-!
# Offsets compared

Natural offsets that cover the entries and are tight on one matching of least cost are tight on all others, so all of
these have the same least offsets: their sweeps pass through different offsets and come to rest at the same ones. On a
part of a matrix the offsets of the whole still cover the entries, so those of the part are nowhere larger.
-/

namespace SigmaMethod

variable {n k : Nat} {m : Signature n} {σ τ : Equiv.Perm (Fin n)} {c d : Fin n → Int}

/-! ## Different matchings -/

/-- What is tight on one matching of least cost is tight on every other. -/
theorem Signature.Covers.tight_of_isOptimal (h : m.Covers c d) (hσ : m.Tight c d σ) (hτ : m.IsOptimal τ) :
    m.Tight c d τ := by
  refine h.tight hτ.transversal ?_
  rw [hσ.value]
  exact (h.isOptimal hσ).costOf_eq hτ

namespace Offsets

variable {o o' : Offsets n}

theorem IsLeast.of_isOptimal (h : o.IsLeast m σ) (hτ : m.IsOptimal τ) : o.IsLeast m τ where
  covers := h.covers
  tight := h.covers.tight_of_isOptimal h.tight hτ
  least c d hc hd := h.least c d hc (hc.tight_of_isOptimal hd (h.covers.isOptimal h.tight))

theorem IsLeast.unique (h : o.IsLeast m σ) (h' : o'.IsLeast m σ) : o = o' := by
  obtain ⟨hc, hd⟩ := h.least _ _ h'.covers h'.tight
  obtain ⟨hc', hd'⟩ := h'.least _ _ h.covers h.tight
  obtain ⟨c, d⟩ := o
  obtain ⟨c', d'⟩ := o'
  congr 1
  · exact Vector.ext fun i hi => le_antisymm (hc ⟨i, hi⟩) (hc' ⟨i, hi⟩)
  · exact Vector.ext fun j hj => le_antisymm (hd ⟨j, hj⟩) (hd' ⟨j, hj⟩)

end Offsets

namespace Signature

theorem IsOptimal.exists_leastOffsets (hσ : m.IsOptimal σ)
    (hno : m.leastOffsets (Array.ofFn fun i => (σ i).val) ≠ .error .overflow) :
    ∃ s, m.leastOffsets (Array.ofFn fun i => (σ i).val) = .ok s ∧ s.offsets.IsLeast m σ := by
  obtain ⟨s, hs, hleast, -⟩ := (leastOffsets_spec hσ.transversal).exists_answer hno fun _ hr => hr (isOptimal_iff.mp hσ)
  exact ⟨s, hs, hleast⟩

theorem isOptimal_of_leastOffsets (hσ : m.IsTransversal σ) {s : Settled n}
    (hs : m.leastOffsets (Array.ofFn fun i => (σ i).val) = .ok s) : m.IsOptimal σ := by
  obtain ⟨hleast, -⟩ := (leastOffsets_spec hσ).answer hs
  exact hleast.covers.isOptimal hleast.tight

/-- **The least offsets do not depend on the matching.** -/
theorem leastOffsets_agree (hσ : m.IsOptimal σ) (hτ : m.IsOptimal τ)
    (h₁ : m.leastOffsets (Array.ofFn fun i => (σ i).val) ≠ .error .overflow)
    (h₂ : m.leastOffsets (Array.ofFn fun i => (τ i).val) ≠ .error .overflow) :
    ∃ s t, m.leastOffsets (Array.ofFn fun i => (σ i).val) = .ok s ∧
      m.leastOffsets (Array.ofFn fun i => (τ i).val) = .ok t ∧ s.offsets = t.offsets ∧
      s.offsets.IsLeast m σ ∧ s.offsets.IsLeast m τ ∧
      ∀ c d, m.Covers c d → (m.Tight c d σ ↔ m.Tight c d τ) := by
  obtain ⟨s, hs, hleast⟩ := hσ.exists_leastOffsets h₁
  obtain ⟨t, ht, hleast'⟩ := hτ.exists_leastOffsets h₂
  have hsame := hleast.of_isOptimal hτ
  refine ⟨s, t, hs, ht, hsame.unique hleast', hleast, hsame, fun c d hcovers => ⟨fun htight => ?_, fun htight => ?_⟩⟩
  · exact hcovers.tight_of_isOptimal htight hτ
  · exact hcovers.tight_of_isOptimal htight hσ

/-- The length may be solved for either coordinate. -/
theorem leastOffsets_agree_pendulum :
    ∃ σ τ : Equiv.Perm (Fin 3), σ ≠ τ ∧ pendulum.IsOptimal σ ∧ pendulum.IsOptimal τ ∧
      pendulum.leastOffsets (Array.ofFn fun i => (σ i).val) ≠ .error .overflow ∧
      pendulum.leastOffsets (Array.ofFn fun i => (τ i).val) ≠ .error .overflow ∧
      ∃ s t, pendulum.leastOffsets (Array.ofFn fun i => (σ i).val) = .ok s ∧
        pendulum.leastOffsets (Array.ofFn fun i => (τ i).val) = .ok t ∧ s.offsets = t.offsets ∧
        s.offsets.IsLeast pendulum σ ∧ s.offsets.IsLeast pendulum τ ∧
        ∀ c d, pendulum.Covers c d → (pendulum.Tight c d σ ↔ pendulum.Tight c d τ) := by
  have hfound : ∀ σ : Equiv.Perm (Fin 3), pendulum.IsTransversal σ →
      (pendulum.leastOffsets (Array.ofFn fun i => (σ i).val)).isOk = true →
      pendulum.IsOptimal σ ∧ pendulum.leastOffsets (Array.ofFn fun i => (σ i).val) ≠ .error .overflow := by
    intro σ hσ hrun
    obtain ⟨s, hs⟩ := isOk_iff.mp hrun
    exact ⟨isOptimal_of_leastOffsets hσ hs, by rw [hs]; exact fun h => nomatch h⟩
  have hσ : pendulum.IsTransversal (Equiv.swap 0 1) := by
    intro i
    match i with
    | 0 => exact ⟨0, by decide⟩
    | 1 => exact ⟨-2, by decide⟩
    | 2 => exact ⟨0, by decide⟩
  obtain ⟨hoptimal, hno⟩ := hfound _ hσ (by decide +kernel)
  obtain ⟨hoptimal', hno'⟩ := hfound _ pendulum_isTransversal (by decide +kernel)
  exact ⟨_, _, by decide, hoptimal, hoptimal', hno, hno', leastOffsets_agree hoptimal hoptimal' hno hno'⟩

end Signature

/-! ## A part of a matrix -/

section part

variable {m' : Signature k} {τ' : Equiv.Perm (Fin k)} {row column : Fin k → Fin n}

structure Signature.IsPart (m' : Signature k) (τ' : Equiv.Perm (Fin k)) (m : Signature n) (σ : Equiv.Perm (Fin n))
    (row column : Fin k → Fin n) : Prop where
  get : ∀ i j, m'.get i j = m.get (row i) (column j)
  partner : ∀ i, column (τ' i) = σ (row i)

namespace Signature

theorem IsPart.covers (h : m'.IsPart τ' m σ row column) (hcovers : m.Covers c d) :
    m'.Covers (fun i => c (row i)) fun j => d (column j) where
  equations i := hcovers.equations (row i)
  unknowns j := hcovers.unknowns (column j)
  entries i j x hx := hcovers.entries (row i) (column j) x (h.get i j ▸ hx)

theorem IsPart.tight (h : m'.IsPart τ' m σ row column) (htight : m.Tight c d σ) :
    m'.Tight (fun i => c (row i)) (fun j => d (column j)) τ' := by
  intro i
  dsimp only
  rw [h.get, h.partner, htight]

end Signature

theorem Offsets.IsLeast.le_of_isPart {o : Offsets k} (ho : o.IsLeast m' τ') (h : m'.IsPart τ' m σ row column)
    (hcovers : m.Covers c d) (htight : m.Tight c d σ) :
    (∀ i, o.c.get i ≤ c (row i)) ∧ ∀ j, o.d.get j ≤ d (column j) :=
  ho.least _ _ (h.covers hcovers) (h.tight htight)

end part

end SigmaMethod
