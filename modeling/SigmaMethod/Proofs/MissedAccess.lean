import SigmaMethod.Proofs.Component.Misses
import SigmaMethod.Proofs.Edit.Acceptance

/-!
# Records that miss an access

An old analysis and the matching of an outer problem come from callers, who may have put anything into them. Of each
record one length is tested before it is read: that of the equation offsets, and that of the columns. So an edit misses
the offset of an unknown that is left, or else the column of an equation that is left, and an expansion the column that
an outer row names, if that lies behind the last one. These are all misses there are.
-/

namespace SigmaMethod

variable {n : Nat} {m : Signature n} {old : Analysis} {e : Edit}

def Analysis.Carries (old : Analysis) (e : Edit) (k : Nat) : Prop :=
  ∀ j < k, j ∉ e.deletedUnknowns → ∃ x, old.d[j]? = some x ∧ InRange (-x)

namespace Edited

theorem readTests_eq_ok_iff : readTests n old e = .ok () ↔
    old.Carries e n ∧ ∀ i < n, i ∉ e.deletedEquations → i < old.columnOf.size := by
  unfold readTests Analysis.Carries
  simp only [bind_eq_ok_iff, exists_const, forM_eq_ok_iff, List.mem_range, offsetTest_eq_ok_iff, columnTest_eq_ok_iff]

theorem readTests_eq_outOfBounds_iff : readTests n old e = .error .outOfBounds ↔
    (∃ j < n, j ∉ e.deletedUnknowns ∧ old.d.size ≤ j ∧ old.Carries e j) ∨
      old.Carries e n ∧ ∃ i < n, i ∉ e.deletedEquations ∧ old.columnOf.size ≤ i := by
  have honly : ∀ i f, columnTest old e.deletedEquations i = .error f → f = .outOfBounds := fun _ _ h =>
    (columnTest_eq_error_iff.mp h).2
  unfold readTests Analysis.Carries
  simp only [bind_eq_error_iff, exists_const, forM_range_eq_error_iff, forM_range_eq_error_iff_exists honly,
    forM_eq_ok_iff, List.mem_range, offsetTest_eq_outOfBounds_iff, offsetTest_eq_ok_iff, columnTest_eq_error_iff,
    and_assoc, and_true]

theorem ofEdit_fits_spec (hc : old.c.size = n) (he : e.Built) (hfits : e.Fits n) (hn : n < 18446744073709551616)
    (hcounted : e.equationsLeft n < 18446744073709551616) :
    ((∃ ed, ofEdit m old e = .ok ed) ↔
        old.Carries e n ∧ ∀ i < n, i ∉ e.deletedEquations → i < old.columnOf.size) ∧
      (ofEdit m old e = .error .outOfBounds ↔
        (∃ j < n, j ∉ e.deletedUnknowns ∧ old.d.size ≤ j ∧ old.Carries e j) ∨
          old.Carries e n ∧ ∃ i < n, i ∉ e.deletedEquations ∧ old.columnOf.size ≤ i) := by
  have hends := ofEdit_endsAs (m := m) hc he hfits hn hcounted
  exact ⟨hends.exists_iff.trans readTests_eq_ok_iff, hends.eq_error_iff.trans readTests_eq_outOfBounds_iff⟩

end Edited

open Placements (privates)

/-- **Where an access misses its vector.** An edit that fits, next to a record with as many equation offsets as there
are equations, is applied if the record has what it reads, and misses an access if that is the first thing that the
record lacks. An expansion, once its matching has the right size and its surrogate rows are accepted, misses an access
if an outer row that stays names a column behind the last one. -/
theorem Failure.outOfBounds_iff {n k : Nat} (m : Signature n) (old : Analysis) (e : Edit) (ps : Placements)
    (outer : Signature k) (s : Matching) :
    (e.Built → n < 18446744073709551616 → e.equationsLeft n < 18446744073709551616 →
      e.unknownsLeft n < 18446744073709551616 →
      (old.c.size ≠ n → Edited.ofEdit m old e = refuse (.dimensionMismatch n old.c.size)) ∧
      (old.c.size = n → ¬ e.Fits n → ∃ r, Edited.ofEdit m old e = refuse r ∧ e.Rejects n r) ∧
      (old.c.size = n → e.Fits n →
        ((∃ ed, Edited.ofEdit m old e = .ok ed) ↔
          old.Carries e n ∧ ∀ i < n, i ∉ e.deletedEquations → i < old.columnOf.size) ∧
        (Edited.ofEdit m old e = .error .outOfBounds ↔
          (∃ j < n, j ∉ e.deletedUnknowns ∧ old.d.size ≤ j ∧ old.Carries e j) ∨
            old.Carries e n ∧ ∃ i < n, i ∉ e.deletedEquations ∧ old.columnOf.size ≤ i))) ∧
    ((∀ p ∈ ps.toList, ∃ b : ComponentBuilder, b.Built ∧ b.build = .ok p.component) →
      (s.columnOf.size ≠ k → ps.expand outer s = refuse (.dimensionMismatch k s.columnOf.size)) ∧
      (ps.expand outer s = .error .outOfBounds ↔
        s.columnOf.size = k ∧ (∀ p ∈ ps.toList, p.surrogate < k) ∧ ps.surrogates.Nodup ∧
          k + privates ps.toList < 18446744073709551616 ∧
          ∃ i j, s.columnOf[i]? = some j ∧ i ∉ ps.surrogates ∧ k + privates ps.toList ≤ j)) := by
  refine ⟨fun he hn hrows hcolumns => ⟨fun hc => ?_, fun hc hfits => ?_, fun hc hfits => ?_⟩,
    fun hbuilt => ⟨fun hs => ?_, ?_⟩⟩
  · unfold Edited.ofEdit
    rw [if_pos (show old.dimension ≠ _ from hc)]
    rfl
  · exact Edited.ofEdit_rejected hc he hfits fun _ => ⟨hrows, hcolumns⟩
  · exact Edited.ofEdit_fits_spec hc he hfits hn hrows
  · unfold Placements.expand
    rw [if_pos hs]
    rfl
  · exact Placements.expand_eq_outOfBounds_iff fun p hp => Component.exact_of_built (hbuilt p hp)

/-- Only the last of the four records has too few offsets of equations. -/
theorem Failure.outOfBounds_iff_pendulum_and_chain :
    Edit.pendulumEdit.Built ∧ Edit.pendulumEdit.Fits 3 ∧
    Edited.ofEdit Signature.pendulum ⟨#[2, 0, 0], #[2], #[0, 2, 1], #[0, 2, 1], -2, none⟩ Edit.pendulumEdit =
      .error .outOfBounds ∧
    Edited.ofEdit Signature.pendulum ⟨#[2, 0, 0], #[2, 2, 0], #[0], #[0, 2, 1], -2, none⟩ Edit.pendulumEdit =
      .error .outOfBounds ∧
    (∃ ed, Edited.ofEdit Signature.pendulum ⟨#[2, 0, 0], #[2, 2, 0], #[0, 9, 1], #[], -2, none⟩ Edit.pendulumEdit =
      .ok ed) ∧
    Edited.ofEdit Signature.pendulum ⟨#[2], #[2, 2, 0], #[0, 2, 1], #[0, 2, 1], -2, none⟩ Edit.pendulumEdit =
      refuse (.dimensionMismatch 3 1) ∧
    Placements.chain.expand Placements.chainOuter ⟨-2, #[5, 1, 2], #[0, 1, 2], #[], #[]⟩ = .error .outOfBounds := by
  have hbuilt : Edit.pendulumEdit.Built :=
    .setNew _ _ _ (.setExisting _ _ _ (.addUnknown (.addEquation (.removeUnknown _ (.removeEquation _ .empty)))))
  have hfits : Edit.pendulumEdit.Fits 3 :=
    hbuilt.fits_iff.mpr ⟨Edit.inBounds_iff.mpr (by decide +kernel), by decide +kernel⟩
  have hcarries : ∀ columnOf rowOf, Analysis.Carries ⟨#[2, 0, 0], #[2, 2, 0], columnOf, rowOf, -2, none⟩
      Edit.pendulumEdit 3 := by
    intro columnOf rowOf j hj _
    match j with
    | 0 => exact ⟨2, rfl, by decide⟩
    | 1 => exact ⟨2, rfl, by decide⟩
    | 2 => exact ⟨0, rfl, by decide⟩
  have hmisses (old : Analysis) := outOfBounds_iff Signature.pendulum old Edit.pendulumEdit Placements.chain
    Placements.chainOuter ⟨-2, #[5, 1, 2], #[0, 1, 2], #[], #[]⟩
  have hends (old : Analysis) := (hmisses old).1 hbuilt (by decide) (by decide +kernel) (by decide +kernel)
  refine ⟨hbuilt, hfits, ?_, ?_, ?_, (hends _).1 (by decide), ?_⟩
  · refine (((hends _).2.2 rfl hfits).2).mpr (.inl ⟨1, by decide, by decide +kernel, by decide, fun j hj h => ?_⟩)
    obtain rfl : j = 0 := by omega
    exact absurd h (by decide +kernel)
  · exact (((hends _).2.2 rfl hfits).2).mpr (.inr ⟨hcarries _ _, 2, by decide, by decide +kernel, by decide⟩)
  · exact (((hends _).2.2 rfl hfits).1).mpr ⟨hcarries _ _, fun i hi _ => hi⟩
  · refine (((hmisses ⟨#[], #[], #[], #[], 0, none⟩).2 Placements.chain_built).2).mpr ?_
    refine ⟨rfl, by decide, by decide, by decide, 0, 5, rfl, ?_, ?_⟩
    · decide
    · decide

/-- The test of an analysis refuses the record that an edit, even one that changes nothing, reads past its end. -/
theorem Failure.outOfBounds_of_shortRecord :
    Analysis.verify ⟨#[0], #[], #[0], #[0], 0, none⟩ ((Signature.empty 1).put 0 0 0) = refuse (.dimensionMismatch 1 0) ∧
      Edited.ofEdit ((Signature.empty 1).put 0 0 0) ⟨#[0], #[], #[0], #[0], 0, none⟩ .empty = .error .outOfBounds ∧
      Edited.ofEdit ((Signature.empty 1).put 0 0 0) ⟨#[0], #[0], #[], #[0], 0, none⟩ .empty = .error .outOfBounds ∧
      Placements.expand #[] ((Signature.empty 1).put 0 0 0) ⟨0, #[1], #[0], #[0], #[0]⟩ = .error .outOfBounds :=
  ⟨rfl, rfl, rfl, rfl⟩

end SigmaMethod
