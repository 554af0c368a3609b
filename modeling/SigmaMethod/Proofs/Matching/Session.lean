import SigmaMethod.Proofs.Matching.Restart

/-!
# Sessions of restarts

A session keeps a matrix together with a partial matching: it drops pairs, writes entries at free lines, and solves
again from what is left. All the while the record stays valid and proves its own pairs optimal, so a restart finds what
a solver that starts from nothing finds.
-/

namespace SigmaMethod

variable {n : Nat} {m t : Signature n} {p q : PartialMatching} {s : Matching}

namespace PartialMatching

variable {i j : Nat}

/-! ## Dropping pairs -/

structure Thins (p q : PartialMatching) : Prop where
  u : q.u = p.u
  v : q.v = p.v
  columnOf_size : q.columnOf.size = p.columnOf.size
  rowOf_size : q.rowOf.size = p.rowOf.size
  pairs : ∃ kept : Nat → Nat → Prop,
    (∀ i j : Nat, q.columnOf[i]? = some (some j) ↔ p.columnOf[i]? = some (some j) ∧ kept i j) ∧
      ∀ i j : Nat, q.rowOf[j]? = some (some i) ↔ p.rowOf[j]? = some (some i) ∧ kept i j

theorem Thins.refl (p : PartialMatching) : p.Thins p :=
  ⟨rfl, rfl, rfl, rfl, fun _ _ => True, fun i j => by simp, fun i j => by simp⟩

theorem Valid.thins_of_pair (h : p.Valid m) (hij : p.columnOf[i]? = some (some j)) (hi : i < p.columnOf.size)
    (hj : j < p.rowOf.size) :
    p.Thins { p with columnOf := p.columnOf.set i none hi, rowOf := p.rowOf.set j none hj } := by
  refine ⟨rfl, rfl, by simp, by simp, fun k _ => k ≠ i, fun k l => ?_, fun k l => ?_⟩
  · rw [Array.getElem?_set]
    by_cases hk : i = k <;> simp [hk, eq_comm]
  · rw [Array.getElem?_set, ← h.agree k l]
    by_cases hl : j = l
    · subst hl
      have hrow : p.columnOf[k]? = some (some j) → k = i := by
        intro hkj
        rw [h.agree] at hij hkj
        rw [hij] at hkj
        cases hkj
        rfl
      simpa using hrow
    · have hrow : p.columnOf[k]? = some (some l) → k ≠ i := by
        intro hkl hk
        rw [hk, hij] at hkl
        cases hkl
        exact hl rfl
      simpa [hl, ← h.agree k l] using hrow

theorem set_none_eq_self {xs : Array (Option Nat)} {k : Nat} (hk : xs[k]? = some none) (h : k < xs.size) :
    xs.set k none h = xs := by
  rw [Array.getElem?_eq_getElem h, Option.some.injEq] at hk
  rw [← hk, Array.set_getElem_self]

theorem Valid.thins_unassignRow (h : p.Valid m) (i : Nat) : p.Thins ((unassignRow i).apply p).2 := by
  unfold unassignRow
  rw [Update.apply_get_bind]
  refine Update.liftM_bind_leaves (.refl p) fun _ _ => Update.liftM_bind_leaves (.refl p) fun partner hpartner => ?_
  rw [lookAt_eq_ok_iff] at hpartner
  cases partner with
  | none =>
    simp only [pure_bind]
    refine Update.liftM_bind_leaves (.refl p) fun columnOf hcolumnOf => ?_
    obtain ⟨hi, rfl⟩ := writeAt_eq_ok_iff.mp hcolumnOf
    rw [set_none_eq_self hpartner]
    exact .refl p
  | some j =>
    refine Update.liftM_bind_leaves (.refl p) fun rowOf hrowOf => ?_
    refine Update.liftM_bind_leaves (.refl p) fun columnOf hcolumnOf => ?_
    obtain ⟨hj, rfl⟩ := writeAt_eq_ok_iff.mp hrowOf
    obtain ⟨hi, rfl⟩ := writeAt_eq_ok_iff.mp hcolumnOf
    exact h.thins_of_pair hpartner hi hj

theorem Valid.thins_unassignColumn (h : p.Valid m) (j : Nat) : p.Thins ((unassignColumn j).apply p).2 := by
  unfold unassignColumn
  rw [Update.apply_get_bind]
  refine Update.liftM_bind_leaves (.refl p) fun _ _ => Update.liftM_bind_leaves (.refl p) fun partner hpartner => ?_
  rw [lookAt_eq_ok_iff] at hpartner
  cases partner with
  | none =>
    simp only [pure_bind]
    refine Update.liftM_bind_leaves (.refl p) fun rowOf hrowOf => ?_
    obtain ⟨hj, rfl⟩ := writeAt_eq_ok_iff.mp hrowOf
    rw [set_none_eq_self hpartner]
    exact .refl p
  | some i =>
    refine Update.liftM_bind_leaves (.refl p) fun columnOf hcolumnOf => ?_
    refine Update.liftM_bind_leaves (.refl p) fun rowOf hrowOf => ?_
    obtain ⟨hj, rfl⟩ := writeAt_eq_ok_iff.mp hrowOf
    obtain ⟨hi, rfl⟩ := writeAt_eq_ok_iff.mp hcolumnOf
    exact h.thins_of_pair ((h.agree i j).mpr hpartner) hi hj

theorem Valid.thin (h : p.Valid m) (hq : p.Thins q) : q.Valid m := by
  obtain ⟨kept, hcolumnOf, hrowOf⟩ := hq.pairs
  refine ⟨by simpa [hq.u, hq.v, hq.columnOf_size, hq.rowOf_size] using h.sizes, fun i hi j hij => ?_,
    fun j hj i hji => ?_⟩
  · obtain ⟨hold, hkept⟩ := (hcolumnOf i j).mp hij
    obtain ⟨hj, hback, hentry⟩ := h.rows i hi j hold
    exact ⟨hj, (hrowOf i j).mpr ⟨hback, hkept⟩, hentry⟩
  · obtain ⟨hold, hkept⟩ := (hrowOf i j).mp hji
    obtain ⟨hi, hback⟩ := h.columns j hj i hold
    exact ⟨hi, (hcolumnOf i j).mpr ⟨hback, hkept⟩⟩

theorem Proves.thin (h : p.Proves m) (hq : p.Thins q) : q.Proves m := by
  obtain ⟨kept, hcolumnOf, hrowOf⟩ := hq.pairs
  refine ⟨fun i j hij => ?_, fun i j k l x hik hjl hx => ?_⟩
  · rw [hq.u, hq.v]
    exact h.tight i j ((hcolumnOf i j).mp hij).1
  · rw [hq.u, hq.v]
    exact h.feasible i j k l x ((hcolumnOf i k).mp hik).1 ((hrowOf l j).mp hjl).1 hx

/-! ## Writing entries at free lines -/

def Blind (p : PartialMatching) (m t : Signature n) : Prop :=
  ∀ i j k l : Nat, p.columnOf[i]? = some (some k) → p.rowOf[j]? = some (some l) → t.cost? i j = m.cost? i j

theorem blind_insert (m : Signature n) (x : Int) (hfree : p.columnOf[i]? = some none ∨ p.rowOf[j]? = some none) :
    p.Blind m ((Signature.insert i j x).apply m).2 := by
  have hstores := Signature.insert_stores m i j x
  unfold Signature.Stores at hstores
  split at hstores
  · rename_i t ht
    intro r k l c hr hk
    have hne : ¬ (r = i ∧ k = j) := by
      intro h
      rw [h.1] at hr
      rw [h.2] at hk
      cases hfree with
      | inl hi => simp [hr] at hi
      | inr hj => simp [hk] at hj
    rw [ht]
    dsimp only
    rw [hstores, if_neg hne]
  · rename_i ht
    rw [ht]
    dsimp only
    rw [hstores]
    exact fun _ _ _ _ _ _ => rfl

theorem Valid.blind (h : p.Valid m) (ht : p.Blind m t) : p.Valid t := by
  refine ⟨h.sizes, fun i hi j hij => ?_, h.columns⟩
  obtain ⟨hj, hback, hentry⟩ := h.rows i hi j hij
  rw [← ht i j j i hij hback] at hentry
  exact ⟨hj, hback, hentry⟩

theorem Proves.blind (h : p.Proves m) (hp : p.Valid m) (ht : p.Blind m t) : p.Proves t := by
  have hget : ∀ (i j : Fin n) (k l : Nat), p.columnOf[i.val]? = some (some k) → p.rowOf[j.val]? = some (some l) →
      t.get i j = m.get i j := by
    intro i j k l hi hj
    rw [← t.cost?_eq, ← m.cost?_eq]
    exact ht i j k l hi hj
  refine ⟨fun i j hij => ?_, fun i j k l x hik hjl hx => ?_⟩
  · rw [hget i j j i hij ((hp.agree i j).mp hij)]
    exact h.tight i j hij
  · rw [hget i j k l hik hjl] at hx
    exact h.feasible i j k l x hik hjl hx

end PartialMatching

/-! ## Keeping a solution -/

section solution

variable {σ : Equiv.Perm (Fin n)} {u v : Fin n → Int}

theorem Matching.Records.columnOf_eq_some_iff (h : s.Records m σ u v) (i j : Nat) :
    (PartialMatching.ofMatching s).columnOf[i]? = some (some j) ↔ ∃ hi : i < n, (σ ⟨i, hi⟩).val = j := by
  by_cases hi : i < n <;> simp [PartialMatching.ofMatching, h.columnOf, hi]

theorem Matching.Records.rowOf_eq_some_iff (h : s.Records m σ u v) (i j : Nat) :
    (PartialMatching.ofMatching s).rowOf[j]? = some (some i) ↔ ∃ hj : j < n, (σ.symm ⟨j, hj⟩).val = i := by
  by_cases hj : j < n <;> simp [PartialMatching.ofMatching, h.rowOf, hj]

theorem Matching.Records.valid_ofMatching (h : s.Records m σ u v) : (PartialMatching.ofMatching s).Valid m where
  sizes := by simp [PartialMatching.ofMatching, h.rowPotentials, h.columnPotentials, h.columnOf, h.rowOf]
  rows i hi j hij := by
    obtain ⟨_, rfl⟩ := (h.columnOf_eq_some_iff i j).mp hij
    obtain ⟨x, hx⟩ := h.meets.isTransversal ⟨i, hi⟩
    refine ⟨Fin.isLt _, (h.rowOf_eq_some_iff i _).mpr ⟨Fin.isLt _, by simp⟩, x, ?_⟩
    rw [m.cost?_eq ⟨i, hi⟩, hx]
  columns j hj i hji := by
    obtain ⟨_, rfl⟩ := (h.rowOf_eq_some_iff i j).mp hji
    exact ⟨Fin.isLt _, (h.columnOf_eq_some_iff _ j).mpr ⟨Fin.isLt _, by simp⟩⟩

theorem Matching.Records.proves_ofMatching (h : s.Records m σ u v) (hsupports : m.Supports u v) :
    (PartialMatching.ofMatching s).Proves m where
  tight i j hij := by
    obtain ⟨_, hj⟩ := (h.columnOf_eq_some_iff i j).mp hij
    obtain rfl : σ i = j := Fin.ext hj
    simpa [PartialMatching.ofMatching, h.rowPotentials, h.columnPotentials] using h.meets i
  feasible i j k l x _ _ hx := by
    simpa [PartialMatching.ofMatching, h.rowPotentials, h.columnPotentials] using hsupports i j x hx

end solution

/-! ## Sessions -/

/-- The record after a restart: the solution if there is one, and what it was if not. -/
def PartialMatching.restart (settings : Settings) (m : Signature n) (p : PartialMatching) : PartialMatching :=
  match m.solveDelta settings p with
  | .ok s => .ofMatching s
  | .error _ => p

/-- A matrix and a partial matching of it that a session has led to. Commands that fail count as well. -/
inductive Session : Signature n → PartialMatching → Prop
  | start {m : Signature n} {s : Matching} (settings : Settings) : m.solve settings = .ok s →
      Session m (.ofMatching s)
  | unassignRow {m : Signature n} {p : PartialMatching} (i : Nat) : Session m p →
      Session m ((PartialMatching.unassignRow i).apply p).2
  | unassignColumn {m : Signature n} {p : PartialMatching} (j : Nat) : Session m p →
      Session m ((PartialMatching.unassignColumn j).apply p).2
  | insert {m : Signature n} {p : PartialMatching} (i j : Nat) (x : Int) : Session m p →
      p.columnOf[i]? = some none ∨ p.rowOf[j]? = some none → Session ((Signature.insert i j x).apply m).2 p
  | restart {m : Signature n} {p : PartialMatching} (settings : Settings) : Session m p →
      Session m (p.restart settings m)

namespace Session

theorem valid_and_proves (h : Session m p) : p.Valid m ∧ p.Proves m := by
  induction h with
  | start settings hs =>
    obtain ⟨σ, u, v, hrecords, hsupports⟩ := (Signature.solve_spec settings _).answer hs
    exact ⟨hrecords.valid_ofMatching, hrecords.proves_ofMatching hsupports⟩
  | unassignRow i _ ih =>
    have hthins := ih.1.thins_unassignRow i
    exact ⟨ih.1.thin hthins, ih.2.thin hthins⟩
  | unassignColumn j _ ih =>
    have hthins := ih.1.thins_unassignColumn j
    exact ⟨ih.1.thin hthins, ih.2.thin hthins⟩
  | @insert m p i j x _ hfree ih =>
    have hblind := PartialMatching.blind_insert m x hfree
    exact ⟨ih.1.blind hblind, ih.2.blind ih.1 hblind⟩
  | restart settings _ ih =>
    unfold PartialMatching.restart
    split
    · rename_i s hs
      obtain ⟨σ, u, v, hrecords, hsupports⟩ := (Signature.solveDelta_spec settings ih.1).answer hs
      exact ⟨hrecords.valid_ofMatching, hrecords.proves_ofMatching (hsupports ih.2)⟩
    · exact ih

/-- **A restart finds what a solver that starts from nothing finds.** -/
theorem restart_agrees (h : Session m p) :
    p.validate m = .ok () ∧ ∀ settings settings',
      m.solveDelta settings p ≠ .error .overflow → m.solve settings' ≠ .error .overflow →
        (∃ s s' σ u v, m.solveDelta settings p = .ok s ∧ m.solve settings' = .ok s' ∧ s.cost = s'.cost ∧
          s.Records m σ u v ∧ m.Supports u v ∧ m.IsOptimal σ) ∨
        (m.solveDelta settings p = refuse m.singularity ∧ m.solve settings' = refuse m.singularity) := by
  obtain ⟨hvalid, hproves⟩ := h.valid_and_proves
  refine ⟨PartialMatching.validate_eq_ok_iff.mpr hvalid, fun settings settings' h₁ h₂ => ?_⟩
  rcases (Signature.solveDelta_spec settings hvalid).cases h₁ with
    ⟨s, hs, σ, u, v, hrecords, hsupports⟩ | ⟨r, hr, hsing⟩
  · have hoptimal := (hsupports hproves).isOptimal hrecords.meets
    rcases (m.solve_spec settings').cases h₂ with ⟨s', hs', σ', u', v', hrecords', hsupports'⟩ | ⟨r, -, hsing⟩
    · have hcost := hoptimal.costOf_eq (hsupports'.isOptimal hrecords'.meets)
      rw [← hrecords.cost, ← hrecords'.cost] at hcost
      exact .inl ⟨s, s', σ, u, v, hs, hs', hcost, hrecords, hsupports hproves, hoptimal⟩
    · exact absurd hrecords.meets.isTransversal (hsing.2 σ)
  · have hsing := hsing.resolve_right fun h => h.2 hproves
    rcases (m.solve_spec settings').cases h₂ with ⟨s', -, σ', u', v', hrecords', -⟩ | ⟨r', hr', hsing'⟩
    · exact absurd hrecords'.meets.isTransversal (hsing.2 σ')
    · rw [hr, hr', hsing.1, hsing'.1]
      exact .inr ⟨rfl, rfl⟩

/-- The length is unassigned and gets a cheaper entry, so that other pairs are optimal. -/
theorem restart_agrees_pendulum : ∃ (m : Signature 3) (p : PartialMatching), Session m p ∧
    m.solveDelta {} p ≠ .error .overflow ∧ m.solve {} ≠ .error .overflow ∧ p.validate m = .ok () ∧
    ((∃ s s' σ u v, m.solveDelta {} p = .ok s ∧ m.solve {} = .ok s' ∧ s.cost = s'.cost ∧
        s.Records m σ u v ∧ m.Supports u v ∧ m.IsOptimal σ) ∨
      (m.solveDelta {} p = refuse m.singularity ∧ m.solve {} = refuse m.singularity)) := by
  let s : Matching := ⟨-2, #[0, 2, 1], #[0, 2, 1], #[2, 0, 0], #[-2, -2, 0]⟩
  have hstart : Session Signature.pendulum (.ofMatching s) := .start {} (by decide +kernel)
  have h := Session.insert 0 1 (-5) (.unassignRow 0 hstart) (.inl (by decide +kernel))
  have h₁ : ((Signature.insert 0 1 (-5)).apply Signature.pendulum).2.solveDelta {}
      ((PartialMatching.unassignRow 0).apply (.ofMatching s)).2 ≠ .error .overflow := by
    decide +kernel
  have h₂ : ((Signature.insert 0 1 (-5)).apply Signature.pendulum).2.solve {} ≠ .error .overflow := by
    decide +kernel
  obtain ⟨hvalidate, hagree⟩ := restart_agrees h
  exact ⟨_, _, h, h₁, h₂, hvalidate, hagree {} {} h₁ h₂⟩

end Session

end SigmaMethod
