import Mathlib.Algebra.BigOperators.Ring.Finset
import Mathlib.Combinatorics.Hall.Finite
import Mathlib.Data.Fintype.EquivFin
import Mathlib.Data.Int.LeastGreatest
import SigmaMethod.Proofs.Matching.Transversal

/-!
# Duality

Every optimal transversal has potentials that prove it optimal. Supporting potentials of greatest sum exist, since the
cost of a transversal bounds the sums. The entries they are tight on satisfy the marriage condition: a set of rows with
too few tight columns could be raised by one against these columns, and the sum would grow.
-/

namespace SigmaMethod

namespace Signature

variable {n : Nat} {m : Signature n} {u v : Fin n → Int} {σ : Equiv.Perm (Fin n)}

theorem exists_supports (m : Signature n) : ∃ u v, m.Supports u v := by
  refine ⟨fun i => -∑ j, |(m.get i j).getD 0|, fun _ => 0, fun i j x hx => ?_⟩
  have hle := Finset.single_le_sum (f := fun j => |(m.get i j).getD 0|) (fun j _ => abs_nonneg _) (Finset.mem_univ j)
  simp only [hx, Option.getD_some] at hle
  have := neg_abs_le x
  dsimp only
  omega

def tightColumns (m : Signature n) (u v : Fin n → Int) (i : Fin n) : Finset (Fin n) :=
  {j | m.get i j = some (u i + v j)}

theorem mem_tightColumns {i j : Fin n} : j ∈ m.tightColumns u v i ↔ m.get i j = some (u i + v j) := by
  simp [tightColumns]

/-- The rows in `s` are raised by one, and the columns that are tight on any of them pay for it. -/
theorem Supports.raise (h : m.Supports u v) (s : Finset (Fin n)) :
    m.Supports (fun i => u i + if i ∈ s then 1 else 0)
      fun j => v j - if j ∈ s.biUnion (m.tightColumns u v) then 1 else 0 := by
  intro i j x hx
  have hle := h i j x hx
  dsimp only
  by_cases hi : i ∈ s
  · by_cases hj : j ∈ s.biUnion (m.tightColumns u v)
    · rw [if_pos hi, if_pos hj]
      omega
    · have hne : u i + v j ≠ x := fun heq =>
        hj (Finset.mem_biUnion.mpr ⟨i, hi, mem_tightColumns.mpr (heq ▸ hx)⟩)
      rw [if_pos hi, if_neg hj]
      omega
  · rw [if_neg hi]
    split <;> omega

/-- The rows of potentials of greatest sum can be matched at tight entries. -/
theorem Supports.exists_meets (h : m.Supports u v)
    (hgreatest : ∀ u' v', m.Supports u' v' → ∑ i, u' i + ∑ j, v' j ≤ ∑ i, u i + ∑ j, v j) :
    ∃ τ, m.Meets u v τ := by
  have hhall : ∀ s : Finset (Fin n), s.card ≤ (s.biUnion (m.tightColumns u v)).card := by
    intro s
    have hle := hgreatest _ _ (h.raise s)
    rw [Finset.sum_add_distrib, Finset.sum_sub_distrib, Finset.sum_boole, Finset.sum_boole, Finset.filter_univ_mem,
      Finset.filter_univ_mem] at hle
    omega
  obtain ⟨f, hinj, hf⟩ := (Finset.all_card_le_biUnion_card_iff_existsInjective' _).mp hhall
  refine ⟨Equiv.ofBijective f (Finite.injective_iff_bijective.mp hinj), fun i => ?_⟩
  exact mem_tightColumns.mp (hf i)

theorem IsTransversal.exists_potentials (hσ : m.IsTransversal σ) : ∃ u v τ, m.Supports u v ∧ m.Meets u v τ := by
  obtain ⟨u₀, v₀, h₀⟩ := m.exists_supports
  obtain ⟨k, ⟨u, v, h, rfl⟩, hgreatest⟩ := Int.exists_greatest_of_bdd
    (P := fun k => ∃ u v, m.Supports u v ∧ ∑ i, u i + ∑ j, v j = k)
    ⟨m.costOf σ, fun k ⟨u, v, h, hk⟩ => hk ▸ h.sum_le_costOf hσ⟩ ⟨_, u₀, v₀, h₀, rfl⟩
  obtain ⟨τ, hτ⟩ := h.exists_meets fun u' v' h' => hgreatest _ ⟨u', v', h', rfl⟩
  exact ⟨u, v, τ, h, hτ⟩

/-- **Strong duality.** -/
theorem isOptimal_iff : m.IsOptimal σ ↔ ∃ u v, m.Supports u v ∧ m.Meets u v σ := by
  constructor
  · intro h
    obtain ⟨u, v, τ, hsupports, hmeets⟩ := h.transversal.exists_potentials
    refine ⟨u, v, hsupports, hsupports.meets h.transversal ?_⟩
    rw [← hmeets.costOf_eq]
    exact h.least τ hmeets.isTransversal
  · rintro ⟨u, v, hsupports, hmeets⟩
    exact hsupports.isOptimal hmeets

end Signature

end SigmaMethod
