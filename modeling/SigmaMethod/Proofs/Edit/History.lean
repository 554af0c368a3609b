import SigmaMethod.Proofs.Edit.Carry

/-!
# Histories of edits

An edited problem is analysed from what is left of the analysis before. Along every chain of edits this finds what an
analysis from nothing finds: the record it starts from proves its own pairs optimal, so the completed matching is
optimal, and optimal matchings share their canonical offsets.
-/

namespace SigmaMethod

variable {n : Nat} {m : Signature n} {a : Analysis} {e : Edit} {ed : Edited}

theorem Edited.analyse_spec (settings : Settings) (ha : a.Solves m) (he : e.Sorted)
    (hed : Edited.ofEdit m a e = .ok ed) :
    Delivers (ed.analyse settings) (fun b => b.Solves ed.matrix) ed.matrix.Singular := by
  obtain ⟨σ, c, d, hrecords, htight, hcanonical⟩ := ha
  have hcarried := (ofEdit_spec hrecords he).answer hed
  have hproves := hcarried.proves hcanonical.covers htight
  unfold Edited.analyse
  refine ((Signature.solveDelta_spec settings (hcarried.valid htight.isTransversal)).mono (fun _ h => h)
    fun r h => h.resolve_right fun h => h.2 hproves).bind ?_
  rintro s ⟨τ, u, v, hs, hsupports⟩
  exact (Signature.analysisOf_spec settings hs.chooses).mono (fun _ h => h)
    fun _ h => absurd ⟨u, v, hsupports hproves, hs.meets⟩ h

/-- A problem that edits have led to, each applied to the problem before it with the analysis of that problem, and the
analysis it has now. -/
inductive Edit.Chain : {n : Nat} → Signature n → Analysis → Prop
  | start {n : Nat} {m : Signature n} {a : Analysis} (settings : Settings) : m.analyse settings = .ok a → Chain m a
  | step {n : Nat} {m : Signature n} {a b : Analysis} {e : Edit} {ed : Edited} (settings : Settings) :
      Chain m a → e.Built → Edited.ofEdit m a e = .ok ed → ed.analyse settings = .ok b → Chain ed.matrix b

theorem Edit.Chain.solves (h : Chain m a) : a.Solves m := by
  induction h with
  | @start n m a settings ha => exact (m.analyse_spec settings).answer ha
  | step settings _ he hed hb ih => exact (Edited.analyse_spec settings ih he.sorted hed).answer hb

/-- **The analysis of an edited problem is an analysis from nothing.** -/
theorem Edit.Chain.analyse_edited (h : Chain m a) (he : e.Built) (hed : Edited.ofEdit m a e = .ok ed)
    (settings settings' : Settings) (h₁ : ed.analyse settings ≠ .error .overflow)
    (h₂ : ed.matrix.analyse settings' ≠ .error .overflow) :
    (∃ b b', ed.analyse settings = .ok b ∧ ed.matrix.analyse settings' = .ok b' ∧
        b.c = b'.c ∧ b.d = b'.d ∧ b.cost = b'.cost) ∨
      (ed.analyse settings = refuse ed.matrix.singularity ∧
        ed.matrix.analyse settings' = refuse ed.matrix.singularity) := by
  have hnone : ∀ {b : Analysis} {r}, b.Solves ed.matrix → ¬ ed.matrix.Singular r := by
    rintro b r ⟨σ, c, d, -, htight, -⟩ hsing
    exact hsing.2 σ htight.isTransversal
  rcases (Edited.analyse_spec settings h.solves he.sorted hed).cases h₁ with ⟨b, hb, hsolves⟩ | ⟨r, hr, hsing⟩
  · rcases (ed.matrix.analyse_spec settings').cases h₂ with ⟨b', hb', hsolves'⟩ | ⟨r, -, hsing⟩
    · exact .inl ⟨b, b', hb, hb', hsolves'.agree hsolves fun _ _ => rfl⟩
    · exact absurd hsing (hnone hsolves)
  · rcases (ed.matrix.analyse_spec settings').cases h₂ with ⟨b', -, hsolves'⟩ | ⟨r', hr', hsing'⟩
    · exact absurd hsing (hnone hsolves')
    · rw [hr, hr', hsing.1, hsing'.1]
      exact .inr ⟨rfl, rfl⟩

/-- The pendulum without its first equation of motion, and with a new unknown and an equation for it. -/
def Edit.pendulumEdit : Edit :=
  let e := ((removeUnknown 0).apply ((removeEquation 1).apply .empty).2).2
  let e := (addUnknown.apply (addEquation.apply e).2).2
  ((setNew 0 0 0).apply ((setExisting 0 1 1).apply e).2).2

theorem Edit.Chain.analyse_edited_pendulum :
    ∃ (a : Analysis) (ed : Edited), Chain Signature.pendulum a ∧ pendulumEdit.Built ∧
      Edited.ofEdit Signature.pendulum a pendulumEdit = .ok ed ∧ ed.analyse {} ≠ .error .overflow ∧
      ed.matrix.analyse {} ≠ .error .overflow ∧
      ((∃ b b', ed.analyse {} = .ok b ∧ ed.matrix.analyse {} = .ok b' ∧ b.c = b'.c ∧ b.d = b'.d ∧ b.cost = b'.cost) ∨
        (ed.analyse {} = refuse ed.matrix.singularity ∧ ed.matrix.analyse {} = refuse ed.matrix.singularity)) := by
  let a : Analysis := ⟨#[2, 0, 0], #[2, 2, 0], #[0, 2, 1], #[0, 2, 1], -2, none⟩
  have hchain : Chain Signature.pendulum a := .start {} (by decide +kernel)
  have hbuilt : pendulumEdit.Built :=
    .setNew _ _ _ (.setExisting _ _ _ (.addUnknown (.addEquation (.removeUnknown _ (.removeEquation _ .empty)))))
  have hrun : (Edited.ofEdit Signature.pendulum a pendulumEdit).map (fun ed =>
      decide (ed.analyse {} ≠ .error .overflow ∧ ed.matrix.analyse {} ≠ .error .overflow)) = .ok true := by
    decide +kernel
  obtain ⟨ed, hed, hno⟩ := map_eq_ok_iff.mp hrun
  obtain ⟨h₁, h₂⟩ := of_decide_eq_true hno
  exact ⟨a, ed, hchain, hbuilt, hed, h₁, h₂, hchain.analyse_edited hbuilt hed {} {} h₁ h₂⟩

end SigmaMethod
