import SigmaMethod.Proofs.Component.Assembled
import SigmaMethod.Proofs.Component.Compressed
import SigmaMethod.Proofs.Edit.History

/-!
# Stale starts

An edited problem starts from an old record, and a compressed one from surrogate rows, and nothing checks that either is
right. It does not have to be: all that the analysis needs is a transversal, and only the transversals of least cost
have offsets for it to find. A bad start can cost the answer, but it cannot change it.
-/

namespace SigmaMethod

variable {n : Nat} {m : Signature n} {a : Analysis}

structure Analysis.Right (a : Analysis) (m : Signature n) : Prop where
  optimal : ∃ σ c d, a.Records m σ c d ∧ m.IsOptimal σ ∧ m.Tight c d σ ∧ m.IsCanonical a.cost c d
  analyse : ∀ settings, m.analyse settings ≠ .error .overflow →
    ∃ b, m.analyse settings = .ok b ∧ a.c = b.c ∧ a.d = b.d ∧ a.cost = b.cost

theorem Analysis.Solves.right (h : a.Solves m) : a.Right m where
  optimal := by
    obtain ⟨σ, c, d, hrecords, htight, hcanonical⟩ := h
    exact ⟨σ, c, d, hrecords, hcanonical.covers.isOptimal htight, htight, hcanonical⟩
  analyse settings hno := by
    cases (m.analyse_spec settings).cases hno with
    | inl hok =>
      obtain ⟨b, hb, hsolves⟩ := hok
      exact ⟨b, hb, hsolves.agree h fun _ _ => rfl⟩
    | inr hrefused =>
      obtain ⟨r, -, hsing⟩ := hrefused
      obtain ⟨σ, c, d, -, htight, -⟩ := h
      exact absurd htight.isTransversal (hsing.2 σ)

theorem Analysis.Solves.withLayout (h : a.Solves m) (layout : Option Layout) : { a with layout }.Solves m := by
  obtain ⟨σ, c, d, hrecords, htight, hcanonical⟩ := h
  refine ⟨σ, c, d, ?_, htight, hcanonical⟩
  exact ⟨hrecords.columnOf, hrecords.rowOf, hrecords.cost, hrecords.equationOffsets, hrecords.unknownOffsets⟩

theorem Signature.valid_of_solveDelta {settings : Settings} {p : PartialMatching} {s : Matching}
    (h : m.solveDelta settings p = .ok s) : p.Valid m := by
  unfold solveDelta at h
  obtain ⟨_, hvalidate, -⟩ := bind_eq_ok_iff.mp h
  exact PartialMatching.validate_eq_ok_iff.mp hvalidate

theorem Edited.chooses_of_analyse {settings : Settings} {ed : Edited} (h : ed.analyse settings = .ok a) :
    ∃ s σ, Matching.Chooses s ed.matrix σ ∧ ed.matrix.analysisOf settings s = .ok a := by
  unfold Edited.analyse at h
  obtain ⟨s, hs, h⟩ := bind_eq_ok_iff.mp h
  obtain ⟨σ, u, v, hrecords, -⟩ := (Signature.solveDelta_spec settings (Signature.valid_of_solveDelta hs)).answer hs
  exact ⟨s, σ, hrecords.chooses, h⟩

theorem Edited.solves_of_analyse {settings : Settings} {ed : Edited} (h : ed.analyse settings = .ok a) :
    a.Solves ed.matrix := by
  obtain ⟨s, σ, hchooses, h⟩ := chooses_of_analyse h
  exact (Signature.analysisOf_spec settings hchooses).answer h

theorem Placements.chooses_of_analyse {settings : Settings} {ps : Placements} {outer : Signature n}
    (hexact : ∀ p ∈ ps.toList, p.component.Exact) (h : ps.analyse settings outer = .ok a) :
    ∃ s x, outer.solve settings = .ok s ∧ ps.expand outer s = .ok x ∧ ∃ t σ b, Matching.Chooses t x.matrix σ ∧
      x.matrix.analysisOf settings t = .ok b ∧ a = { b with layout := some x.layout } := by
  unfold Placements.analyse at h
  obtain ⟨s, hs, h⟩ := bind_eq_ok_iff.mp h
  obtain ⟨x, hx, h⟩ := bind_eq_ok_iff.mp h
  obtain ⟨b, hb, h⟩ := bind_eq_ok_iff.mp h
  cases h
  obtain ⟨σ, hchooses⟩ := expand_chooses hexact hx
  exact ⟨s, x, hs, hx, _, σ, b, hchooses, hb, rfl⟩

theorem Placements.solves_of_analyse {settings : Settings} {ps : Placements} {outer : Signature n}
    (hexact : ∀ p ∈ ps.toList, p.component.Exact) (h : ps.analyse settings outer = .ok a) :
    ∃ s x, outer.solve settings = .ok s ∧ ps.expand outer s = .ok x ∧ a.Solves x.matrix := by
  obtain ⟨s, x, hs, hx, t, σ, b, hchooses, hb, rfl⟩ := chooses_of_analyse hexact h
  exact ⟨s, x, hs, hx, ((Signature.analysisOf_spec settings hchooses).answer hb).withLayout _⟩

/-- **An analysis that succeeds is right, however stale the data it started from.** -/
theorem Analysis.right_of_stale_start :
    (∀ {n : Nat} (m : Signature n) (old : Analysis) (e : Edit) (ed : Edited) (settings : Settings) (a : Analysis),
      Edited.ofEdit m old e = .ok ed → ed.analyse settings = .ok a → a.Right ed.matrix) ∧
    ∀ {n : Nat} (outer : Signature n) (ps : Placements) (settings : Settings) (a : Analysis),
      (∀ p ∈ ps.toList, ∃ b : ComponentBuilder, b.Built ∧ b.build = .ok p.component) →
      ps.analyse settings outer = .ok a →
      ∃ s x, outer.solve settings = .ok s ∧ ps.expand outer s = .ok x ∧ a.Right x.matrix := by
  refine ⟨fun m old e ed settings a _ ha => (Edited.solves_of_analyse ha).right, ?_⟩
  intro n outer ps settings a hbuilt ha
  have hexact : ∀ p ∈ ps.toList, p.component.Exact := fun p hp => Component.exact_of_built (hbuilt p hp)
  obtain ⟨s, x, hs, hx, hsolves⟩ := Placements.solves_of_analyse hexact ha
  exact ⟨s, x, hs, hx, hsolves.right⟩

/-- Offsets and a matching that no analysis of the pendulum has given. -/
def Analysis.stalePendulum : Analysis := ⟨#[0, 7, -20], #[100, 5, 2], #[1, 0, 2], #[], 40, none⟩

/-- The first surrogate row has other costs than the exits of its component. -/
def Placements.staleOuter : Signature 3 :=
  ((Signature.insert 1 1 (-7)).apply ((Signature.insert 1 0 5).apply chainOuter).2).2

theorem Analysis.right_of_stale_start_pendulum_and_chain :
    (∃ ed a, Edited.ofEdit Signature.pendulum stalePendulum Edit.pendulumEdit = .ok ed ∧
      ed.analyse {} = .ok a ∧ a.Right ed.matrix) ∧
    ∃ a, Placements.chain.analyse {} Placements.staleOuter = .ok a ∧
      ∃ s x, Placements.staleOuter.solve {} = .ok s ∧ Placements.chain.expand Placements.staleOuter s = .ok x ∧
        a.Right x.matrix := by
  obtain ⟨hedited, hplaced⟩ := right_of_stale_start
  constructor
  · let a : Analysis := ⟨#[2, 0, 0], #[2, 0, 0], #[0, 1, 2], #[0, 1, 2], 0, none⟩
    have hrun : (Edited.ofEdit Signature.pendulum stalePendulum Edit.pendulumEdit).map
        (fun ed => decide (ed.analyse {} = .ok a)) = .ok true := by
      decide +kernel
    obtain ⟨ed, hed, ha⟩ := map_eq_ok_iff.mp hrun
    have ha := of_decide_eq_true ha
    exact ⟨ed, a, hed, ha, hedited _ _ _ ed {} a hed ha⟩
  · have hok : (Placements.chain.analyse {} Placements.staleOuter).isOk = true := by decide +kernel
    obtain ⟨a, ha⟩ := isOk_iff.mp hok
    exact ⟨a, ha, hplaced _ _ {} a Placements.chain_built ha⟩

/-- The record holds the dearer of two matchings, so there is no answer. -/
example : Edited.ofEdit
      (((((Signature.empty 2).put 0 0 0).put 0 1 0).put 1 0 0).put 1 1 (-1)) ⟨#[0, 0], #[0, 0], #[1, 0], #[], 0, none⟩
      .empty >>= Edited.analyse {} = refuse (.inconsistentMatching (.notSettled 6)) := by
  decide +kernel

end SigmaMethod
