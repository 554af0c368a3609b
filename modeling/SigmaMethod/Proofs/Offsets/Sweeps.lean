import SigmaMethod.Proofs.Matching.Duality
import SigmaMethod.Proofs.Offsets.Least

/-!
# The fixed point decides optimality

A run of sweeps either comes to one that moves no offset, and stops there, or uses up its limit with sweeps that all
move something. By duality a transversal of least cost has offsets to approach, so it is the one that settles, after `n
+ 1` sweeps at most.
-/

namespace SigmaMethod

variable {n : Nat} {m : Signature n} {σ : Equiv.Perm (Fin n)} {f : Fin n → Fin n}

namespace Offsets

inductive Moving (m : Signature n) (pairs : List (Pair n)) : Nat → Offsets n → Offsets n → Prop
  | still {o : Offsets n} : Moving m pairs 0 o o
  | sweep {k : Nat} {o r t : Offsets n} : (o.raise m >>= follow pairs) = .ok r → (∃ i, r.c.get i ≠ o.c.get i) →
      Moving m pairs k r t → Moving m pairs (k + 1) o t

structure Stopped (m : Signature n) (pairs : List (Pair n)) (k : Nat) (o : Offsets n) (s : Settled n) : Prop where
  moving : ∃ t, Moving m pairs k o t ∧ (t.raise m >>= follow pairs) = .ok s.offsets ∧ s.offsets.c = t.c

end Offsets

open Offsets

theorem exists_get_ne {v w : Vector Int n} (h : v ≠ w) : ∃ i, v.get i ≠ w.get i := by
  by_contra hall
  refine h (Vector.ext fun i hi => ?_)
  exact not_not.mp fun hne => hall ⟨⟨i, hi⟩, hne⟩

theorem settle_stopped (hf : m.OnEntries f) : ∀ {fuel sweep : Nat} {o : Offsets n},
    Delivers (settle m (m.pairsOf f) fuel sweep o)
      (fun s => ∃ k, Stopped m (m.pairsOf f) k o s ∧ s.sweeps = sweep + k)
      (fun r => r = .inconsistentMatching (.notSettled (2 * n + 2)) ∧ ∃ t, Moving m (m.pairsOf f) fuel o t) := by
  intro fuel
  induction fuel with
  | zero => exact .refuse ⟨rfl, _, .still⟩
  | succ fuel ih =>
    intro sweep o
    unfold settle
    rw [← bind_assoc]
    refine (sweep_spec hf o).attach.widen.bind fun r hr => ?_
    obtain ⟨hr, -⟩ := hr
    split
    · rename_i heq
      exact .pure ⟨0, ⟨o, .still, hr, heq⟩, rfl⟩
    · rename_i hne
      have hmoved := exists_get_ne hne
      refine ih.mono (fun s hs => ?_) fun _ hs => ?_
      · obtain ⟨k, ⟨t, ht, hlast⟩, hsweeps⟩ := hs
        exact ⟨k + 1, ⟨t, .sweep hr hmoved ht, hlast⟩, by omega⟩
      · obtain ⟨hcause, t, ht⟩ := hs
        exact ⟨hcause, t, .sweep hr hmoved ht⟩

theorem Signature.leastOffsets_stopped (hf : m.OnEntries f) :
    Delivers (m.leastOffsets (Array.ofFn fun i => (f i).val))
      (fun s => ∃ k, Stopped m (m.pairsOf f) k (.zero n) s ∧ s.sweeps = k + 1)
      (fun r => r = .inconsistentMatching (.notSettled (2 * n + 2)) ∧
        ∃ t, Moving m (m.pairsOf f) (2 * n + 2) (.zero n) t) := by
  unfold leastOffsets
  rw [Array.size_ofFn, if_neg (fun h => h rfl), mapM_matchedPair hf]
  refine (settle_stopped hf).mono (fun s hs => ?_) fun _ hr => hr
  obtain ⟨k, hstopped, hsweeps⟩ := hs
  exact ⟨k, hstopped, by omega⟩

/-- **The fixed point settles exactly on the transversals of least cost**, and on those after `n + 1` sweeps at most. On
all others each of its `2 * n + 2` sweeps moves an offset. -/
theorem Signature.leastOffsets_decides (m : Signature n) (σ : Equiv.Perm (Fin n)) (hσ : m.IsTransversal σ)
    (hno : m.leastOffsets (Array.ofFn fun i => (σ i).val) ≠ .error .overflow) :
    ((∃ s, m.leastOffsets (Array.ofFn fun i => (σ i).val) = .ok s) ↔ m.IsOptimal σ) ∧
      (∀ s, m.leastOffsets (Array.ofFn fun i => (σ i).val) = .ok s →
        s.sweeps ≤ n + 1 ∧ ∃ k, Stopped m (m.pairsOf σ) k (.zero n) s ∧ s.sweeps = k + 1) ∧
      (¬ m.IsOptimal σ → m.leastOffsets (Array.ofFn fun i => (σ i).val) =
          refuse (.inconsistentMatching (.notSettled (2 * n + 2))) ∧
        ∃ t, Moving m (m.pairsOf σ) (2 * n + 2) (.zero n) t) := by
  have hspec := leastOffsets_spec hσ
  rw [← isOptimal_iff] at hspec
  have hstopped := leastOffsets_stopped hσ
  have hoptimal : ∀ {s}, m.leastOffsets (Array.ofFn fun i => (σ i).val) = .ok s → m.IsOptimal σ := fun hs =>
    isOptimal_iff.mpr ⟨_, _, (hspec.answer hs).1.covers.supports, (hspec.answer hs).1.tight.meets⟩
  refine ⟨⟨fun ⟨s, hs⟩ => hoptimal hs, fun h => ?_⟩, fun s hs => ?_, fun h => ?_⟩
  · obtain ⟨s, hs, -⟩ := hspec.exists_answer hno fun _ hr => hr h
    exact ⟨s, hs⟩
  · exact ⟨(hspec.answer hs).2 (hoptimal hs), hstopped.answer hs⟩
  · cases hstopped.cases hno with
    | inl hok =>
      obtain ⟨s, hs, -⟩ := hok
      exact absurd (hoptimal hs) h
    | inr hfail =>
      obtain ⟨r, hr, rfl, hmoving⟩ := hfail
      exact ⟨hr, hmoving⟩

/-- The identity costs less. -/
theorem Signature.leastOffsets_decides_fullSquare :
    fullSquare.IsTransversal (Equiv.swap 0 1) ∧
      fullSquare.leastOffsets (Array.ofFn fun i => (Equiv.swap (0 : Fin 2) 1 i).val) ≠ .error .overflow ∧
      fullSquare.leastOffsets (Array.ofFn fun i => (Equiv.swap (0 : Fin 2) 1 i).val) =
        refuse (.inconsistentMatching (.notSettled 6)) ∧
      ∃ t, Moving fullSquare (fullSquare.pairsOf (Equiv.swap 0 1)) 6 (.zero 2) t := by
  have hσ : fullSquare.IsTransversal (Equiv.swap 0 1) := fullSquare_isTransversal _
  have hno : fullSquare.leastOffsets (Array.ofFn fun i => (Equiv.swap (0 : Fin 2) 1 i).val) ≠ .error .overflow := by
    have hrun : (fullSquare.leastOffsets (Array.ofFn fun i => (Equiv.swap (0 : Fin 2) 1 i).val)).map (·.sweeps) ≠
        .error .overflow := by
      decide +kernel
    exact fun h => hrun (by rw [h]; rfl)
  obtain ⟨-, -, hmoving⟩ := leastOffsets_decides fullSquare (Equiv.swap 0 1) hσ hno
  refine ⟨hσ, hno, hmoving fun hoptimal => ?_⟩
  have hcheaper : fullSquare.costOf (Equiv.refl _) < fullSquare.costOf (Equiv.swap 0 1) := by decide +kernel
  have := hoptimal.least (Equiv.refl _) (fullSquare_isTransversal _)
  omega

end SigmaMethod
