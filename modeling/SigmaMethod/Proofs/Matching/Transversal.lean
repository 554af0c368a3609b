import Mathlib.Algebra.BigOperators.Group.Finset.Basic
import Mathlib.Algebra.Order.BigOperators.Group.Finset
import Mathlib.Algebra.Order.Ring.Int
import SigmaMethod.Signature.Basic

/-!
# Transversals and potentials

A transversal is a perfect matching on the entries of a matrix. Potentials on the rows and columns that exceed no entry
bound the cost of every transversal from below; one whose entries they meet is of least cost, and they meet the entries
of every other transversal of that cost.
-/

namespace SigmaMethod

namespace Signature

variable {n : Nat}

def IsTransversal (m : Signature n) (σ : Equiv.Perm (Fin n)) : Prop := ∀ i, ∃ x, m.get i (σ i) = some x

def costOf (m : Signature n) (σ : Equiv.Perm (Fin n)) : Int := ∑ i, (m.get i (σ i)).getD 0

structure IsOptimal (m : Signature n) (σ : Equiv.Perm (Fin n)) : Prop where
  transversal : m.IsTransversal σ
  least : ∀ τ, m.IsTransversal τ → m.costOf σ ≤ m.costOf τ

def Supports (m : Signature n) (u v : Fin n → Int) : Prop := ∀ i j x, m.get i j = some x → u i + v j ≤ x

def Meets (m : Signature n) (u v : Fin n → Int) (σ : Equiv.Perm (Fin n)) : Prop :=
  ∀ i, m.get i (σ i) = some (u i + v (σ i))

variable {m m' : Signature n} {u v : Fin n → Int} {σ τ : Equiv.Perm (Fin n)}

theorem sum_potentials (u v : Fin n → Int) (σ : Equiv.Perm (Fin n)) :
    ∑ i, (u i + v (σ i)) = ∑ i, u i + ∑ j, v j := by
  rw [Finset.sum_add_distrib, Equiv.sum_comp σ v]

theorem Meets.isTransversal (h : m.Meets u v σ) : m.IsTransversal σ := fun i => ⟨_, h i⟩

theorem Meets.costOf_eq (h : m.Meets u v σ) : m.costOf σ = ∑ i, u i + ∑ j, v j := by
  rw [← sum_potentials u v σ]
  refine Finset.sum_congr rfl fun i _ => ?_
  rw [h i, Option.getD_some]

theorem Supports.le_getD (h : m.Supports u v) (hσ : m.IsTransversal σ) (i : Fin n) :
    u i + v (σ i) ≤ (m.get i (σ i)).getD 0 := by
  obtain ⟨x, hx⟩ := hσ i
  rw [hx, Option.getD_some]
  exact h i (σ i) x hx

/-- **Weak duality.** -/
theorem Supports.sum_le_costOf (h : m.Supports u v) (hσ : m.IsTransversal σ) :
    ∑ i, u i + ∑ j, v j ≤ m.costOf σ := by
  rw [← sum_potentials u v σ]
  exact Finset.sum_le_sum fun i _ => h.le_getD hσ i

/-- **Potentials that a transversal meets prove it optimal.** -/
theorem Supports.isOptimal (h : m.Supports u v) (hσ : m.Meets u v σ) : m.IsOptimal σ where
  transversal := hσ.isTransversal
  least τ hτ := by rw [hσ.costOf_eq]; exact h.sum_le_costOf hτ

/-- **Complementary slackness.** A transversal that costs no more than the potentials meets them. -/
theorem Supports.meets (h : m.Supports u v) (hσ : m.IsTransversal σ)
    (hcost : m.costOf σ ≤ ∑ i, u i + ∑ j, v j) : m.Meets u v σ := by
  have hle : ∀ i ∈ Finset.univ, u i + v (σ i) ≤ (m.get i (σ i)).getD 0 := fun i _ => h.le_getD hσ i
  have hsum : ∑ i, (u i + v (σ i)) = ∑ i, (m.get i (σ i)).getD 0 := by
    refine le_antisymm (Finset.sum_le_sum hle) ?_
    rw [sum_potentials]
    exact hcost
  intro i
  obtain ⟨x, hx⟩ := hσ i
  have hi := (Finset.sum_eq_sum_iff_of_le hle).mp hsum i (Finset.mem_univ i)
  rw [hx, Option.getD_some] at hi
  rw [hx, hi]

theorem IsOptimal.costOf_eq (hσ : m.IsOptimal σ) (hτ : m.IsOptimal τ) : m.costOf σ = m.costOf τ :=
  le_antisymm (hσ.least τ hτ.transversal) (hτ.least σ hσ.transversal)

/-! ## Matrices with the same entries -/

theorem IsTransversal.congr (h : ∀ i j, m'.get i j = m.get i j) (hσ : m.IsTransversal σ) : m'.IsTransversal σ :=
  fun i => by rw [h]; exact hσ i

theorem costOf_congr (h : ∀ i j, m'.get i j = m.get i j) (σ : Equiv.Perm (Fin n)) : m'.costOf σ = m.costOf σ := by
  unfold costOf
  simp only [h]

theorem IsOptimal.congr (h : ∀ i j, m'.get i j = m.get i j) (hσ : m.IsOptimal σ) : m'.IsOptimal σ where
  transversal := hσ.transversal.congr h
  least τ hτ := by
    rw [costOf_congr h, costOf_congr h]
    exact hσ.least τ (hτ.congr fun i j => (h i j).symm)

/-! ## Small problems -/

/-- The length and two equations of motion, for the coordinates and the tension. -/
def pendulum : Signature 3 :=
  ((((((Signature.empty 3).put 0 0 0).put 0 1 0).put 1 0 (-2)).put 1 2 0).put 2 1 (-2)).put 2 2 0

theorem pendulum_isTransversal : pendulum.IsTransversal (Equiv.swap 1 2) := by
  intro i
  match i with
  | 0 => exact ⟨0, by decide⟩
  | 1 => exact ⟨0, by decide⟩
  | 2 => exact ⟨-2, by decide⟩

/-- Both equations name both unknowns, and only the last entry is not free of charge. -/
def fullSquare : Signature 2 := ((((Signature.empty 2).put 0 0 0).put 0 1 0).put 1 0 0).put 1 1 (-1)

theorem fullSquare_isTransversal (σ : Equiv.Perm (Fin 2)) : fullSquare.IsTransversal σ := by
  have hall : ∀ i j, (fullSquare.get i j).isSome := by decide
  exact fun i => Option.isSome_iff_exists.mp (hall i (σ i))

end Signature

end SigmaMethod
