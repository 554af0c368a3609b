import SigmaMethod.Proofs.Component.Compressed
import SigmaMethod.Proofs.Edit.History
import SigmaMethod.Proofs.Signature.Rebuilt

/-!
# Refused commands

A command that is refused leaves its state as it found it. All but one make their tests first and write once. The one
that writes a surrogate row writes in a loop, after it has tested only where the row begins and ends: from there on no
step is refused, since whether it is does not depend on what has been written.
-/

namespace SigmaMethod

/-! ## Rules -/

/-- If the command is refused, the state is as it was. -/
def Update.Atomic {σ α : Type} (u : Update σ α) (s : σ) : Prop := ∀ r t, u.apply s = (.error (.refused r), t) → t = s

namespace Update

variable {σ α β : Type} {s : σ}

theorem Atomic.apply_eq {u : Update σ α} {r : Refusal} (h : u.Atomic s) (hr : (u.apply s).1 = refuse r) :
    u.apply s = (refuse r, s) :=
  Prod.ext hr (h r _ (Prod.ext hr rfl))

theorem Atomic.of_set (t s : σ) : (set t : Update σ PUnit).Atomic s := fun _ _ h => nomatch h

theorem Atomic.of_throw (e : Failure) (s : σ) : (throw e : Update σ α).Atomic s := by
  intro r t h
  rw [apply_throw] at h
  exact (congrArg Prod.snd h).symm

theorem Atomic.get_bind {f : σ → Update σ β} (h : (f s).Atomic s) : (get >>= f).Atomic s := h

theorem Atomic.of_throw_bind {e : Failure} {f : α → Update σ β} : ((throw e : Update σ α) >>= f).Atomic s := by
  intro r t h
  rw [apply_throw_bind] at h
  exact (congrArg Prod.snd h).symm

theorem Atomic.liftM_bind {x : Outcome α} {f : α → Update σ β} (h : ∀ a, x = .ok a → (f a).Atomic s) :
    ((liftM x : Update σ α) >>= f).Atomic s := by
  intro r t ht
  rw [apply_liftM_bind] at ht
  cases x with
  | ok a => exact h a rfl r t ht
  | error e => exact (congrArg Prod.snd ht).symm

theorem forM_outcome {l : List α} {f : α → Update σ PUnit} {g : α → Outcome PUnit}
    (h : ∀ a ∈ l, ∀ s, ((f a).apply s).1 = g a) (s : σ) : ((l.forM f).apply s).1 = l.forM g := by
  induction l generalizing s with
  | nil => rfl
  | cons a l ih =>
    have ha := h a List.mem_cons_self s
    rw [List.forM_eq_forM, List.forM_eq_forM, List.forM_cons, List.forM_cons, apply_bind, ← ha]
    rcases (f a).apply s with ⟨_ | _, t⟩
    · rfl
    · exact ih (fun b hb => h b (List.mem_cons_of_mem _ hb)) t

end Update

/-! ## Commands that write once -/

theorem Signature.Stores.atomic {n : Nat} {u : Update (Signature n) Unit} {m : Signature n} {i j : Nat} {x : Int}
    (h : Stores u m i j x) : u.Atomic m := by
  intro r t ht
  unfold Stores at h
  rw [ht] at h
  exact h

namespace Edit

theorem removeEquation_atomic (e : Edit) (i : Nat) : (removeEquation i).Atomic e := by
  refine .get_bind ?_
  split
  · exact .of_set _ e
  · exact .of_throw _ e

theorem removeUnknown_atomic (e : Edit) (j : Nat) : (removeUnknown j).Atomic e := by
  refine .get_bind ?_
  cases e.references j with
  | true => exact .of_throw_bind
  | false =>
    cases insertNew j e.deletedUnknowns with
    | some deleted => exact .of_set _ e
    | none => exact .of_throw _ e

theorem modifyRow_atomic (e : Edit) (k : Nat) (f : NewRow → NewRow) : (modifyRow k f).Atomic e :=
  .get_bind (.liftM_bind fun _ _ => .of_set _ e)

theorem setExisting_atomic (e : Edit) (k j : Nat) (x : Int) : (setExisting k j x).Atomic e := by
  refine .get_bind ?_
  split
  · exact .of_throw_bind
  · exact .liftM_bind fun _ _ => modifyRow_atomic e k _

theorem setNew_atomic (e : Edit) (k y : Nat) (x : Int) : (setNew k y x).Atomic e :=
  .get_bind (.liftM_bind fun _ _ => .liftM_bind fun _ _ => modifyRow_atomic e k _)

end Edit

namespace ComponentBuilder

theorem setPublic_atomic (b : ComponentBuilder) (i k : Nat) (x : Int) : (setPublic i k x).Atomic b :=
  .get_bind (.liftM_bind fun _ _ => .liftM_bind fun _ _ => .liftM_bind fun _ _ => .liftM_bind fun _ _ => .of_set _ b)

theorem setPrivate_atomic (b : ComponentBuilder) (i j : Nat) (x : Int) : (setPrivate i j x).Atomic b :=
  .get_bind (.liftM_bind fun _ _ => .liftM_bind fun _ _ => .liftM_bind fun _ _ => .of_set _ b)

end ComponentBuilder

namespace PartialMatching

theorem unassignRow_atomic (p : PartialMatching) (i : Nat) : (unassignRow i).Atomic p := by
  refine .get_bind (.liftM_bind fun _ _ => .liftM_bind fun partner _ => ?_)
  cases partner with
  | some j =>
    refine .liftM_bind fun rowOf _ => ?_
    exact .liftM_bind fun _ _ => .of_set _ p
  | none =>
    simp only [pure_bind]
    exact .liftM_bind fun _ _ => .of_set _ p

theorem unassignColumn_atomic (p : PartialMatching) (j : Nat) : (unassignColumn j).Atomic p := by
  refine .get_bind (.liftM_bind fun _ _ => .liftM_bind fun partner _ => ?_)
  cases partner with
  | some i =>
    refine .liftM_bind fun columnOf _ => ?_
    exact .liftM_bind fun _ _ => .of_set _ p
  | none =>
    simp only [pure_bind]
    exact .liftM_bind fun _ _ => .of_set _ p

end PartialMatching

/-! ## Surrogate rows -/

variable {n : Nat} {p : Placement} {ps : Placements} {k : Nat} {m m' : Signature n}

def Placement.writeExit (p : Placement) (e : Nat) : Update (Signature n) Unit := do
  match ← (p.component.exitCost e : Outcome _) with
  | some cost => Signature.insert p.surrogate (p.firstPublic + e) cost
  | none => pure ()

theorem Placement.writeExit_outcome (hrow : p.surrogate < n) (hcolumns : p.firstPublic + p.component.publics ≤ n)
    {e : Nat} (he : e < p.component.publics) (m : Signature n) :
    ((p.writeExit e).apply m).1 = (p.component.exitCost e).map fun _ => () := by
  unfold writeExit
  rw [Update.apply_liftM_bind]
  cases p.component.exitCost e with
  | error f => rfl
  | ok cost =>
    cases cost with
    | none => rfl
    | some x => exact Signature.insert_eq_ok_iff.mpr ⟨hrow, by omega⟩

theorem Component.exitCost_ne_refuse {c : Component} {e : Nat} (he : e < c.publics) (r : Refusal) :
    (c.exitCost e).map (fun _ => ()) ≠ refuse r := by
  unfold exitCost lookAt
  rw [checkIndex_of_lt he, ok_bind]
  cases c.exitCosts[e]? with
  | some cost => exact fun h => nomatch h
  | none => exact fun h => nomatch h

theorem Placement.exitCost_of_surrogateRow {l : Nat} {x : Int} (h : p.surrogateRow l = some x) :
    ∃ e, l = p.firstPublic + e ∧ p.component.exitCost e = .ok (some x) := by
  obtain ⟨hle, hlt⟩ := p.lt_of_surrogateRow h
  have he : l - p.firstPublic < p.component.publics := by omega
  rw [surrogateRow, if_pos ⟨hle, hlt⟩, Option.join_eq_some_iff] at h
  refine ⟨l - p.firstPublic, by omega, ?_⟩
  rw [Component.exitCost, checkIndex_of_lt he, ok_bind, lookAt_eq_ok_iff, h]

namespace Placements

/-- Either a test fails, whatever the matrix, or all that is left is to write the row. -/
theorem setPublicParts_cases (ps : Placements) (n k : Nat) :
    (∃ f, ∀ m : Signature n, (ps.setPublicParts k).apply m = (.error f, m)) ∨
      ∃ p : Placement, p.surrogate < n ∧ p.firstPublic + p.component.publics ≤ n ∧ ∀ m : Signature n,
        (ps.setPublicParts k).apply m = ((List.range p.component.publics).forM p.writeExit).apply m := by
  unfold setPublicParts
  cases checkIndex .componentInstance k ps.size with
  | error f => exact .inl ⟨f, fun m => rfl⟩
  | ok _ =>
    cases lookAt ps k with
    | error f => exact .inl ⟨f, fun m => rfl⟩
    | ok p =>
      simp only [Update.apply_liftM_bind]
      cases hrow : checkIndex .equation p.surrogate n with
      | error f => exact .inl ⟨f, fun m => rfl⟩
      | ok _ =>
        rw [checkIndex_eq_ok_iff] at hrow
        cases hlast : fitIndex (p.firstPublic + p.component.publics) with
        | error f => exact .inl ⟨f, fun m => rfl⟩
        | ok last =>
          obtain rfl : p.firstPublic + p.component.publics = last := (fitIndex_eq_ok_iff.mp hlast).2
          by_cases hlt : n < p.firstPublic + p.component.publics
          · refine .inl ⟨.refused (.invalidIndex .variable (p.firstPublic + p.component.publics - 1) n), fun m => ?_⟩
            simp only [hlt, if_pos, Update.apply_throw_bind]
          · refine .inr ⟨p, hrow, Nat.not_lt.mp hlt, fun m => ?_⟩
            simp only [hlt, if_neg, not_false_eq_true]
            rfl

theorem setPublicParts_outcome (ps : Placements) (k : Nat) (m m' : Signature n) :
    ((ps.setPublicParts k).apply m).1 = ((ps.setPublicParts k).apply m').1 := by
  cases ps.setPublicParts_cases n k with
  | inl hfails =>
    obtain ⟨f, hf⟩ := hfails
    rw [hf, hf]
  | inr hwrites =>
    obtain ⟨p, hrow, hcolumns, hp⟩ := hwrites
    have hstep := fun e he m => Placement.writeExit_outcome hrow hcolumns (e := e) (List.mem_range.mp he) m
    rw [hp, hp, Update.forM_outcome hstep, Update.forM_outcome hstep]

theorem setPublicParts_atomic (ps : Placements) (k : Nat) (m : Signature n) : (ps.setPublicParts k).Atomic m := by
  intro r t ht
  cases ps.setPublicParts_cases n k with
  | inl hfails =>
    obtain ⟨f, hf⟩ := hfails
    rw [hf] at ht
    exact (congrArg Prod.snd ht).symm
  | inr hwrites =>
    obtain ⟨p, hrow, hcolumns, hp⟩ := hwrites
    have hstep := fun e he m => Placement.writeExit_outcome hrow hcolumns (e := e) (List.mem_range.mp he) m
    have houtcome := Update.forM_outcome hstep m
    rw [← hp, ht] at houtcome
    exact absurd houtcome.symm (forM_ne_refuse (fun e he => Component.exitCost_ne_refuse (List.mem_range.mp he)) r)

theorem Overwrites.changes {i : Nat} {row : CostRow} (h : Overwrites m m' i row) {r l : Nat}
    (hne : m'.cost? r l ≠ m.cost? r l) : r = i ∧ ∃ x, row l = some x := by
  rw [h] at hne
  split at hne
  · refine ⟨‹_›, Option.ne_none_iff_exists'.mp fun hnone => hne ?_⟩
    rw [hnone, Option.none_or]
  · exact absurd rfl hne

theorem Overwrites.same {i : Nat} {row : CostRow} {m'' : Signature n} (h : Overwrites m m' i row)
    (h' : Overwrites m' m'' i row) : m''.Same m' := by
  refine Signature.same_of_cost? fun r l => ?_
  rw [h' r l]
  split
  · rw [h r l, if_pos ‹_›, ← Option.or_assoc, Option.or_self]
  · rfl

structure Published (ps : Placements) (k : Nat) (m m' : Signature n) : Prop where
  changes : ∃ p, ps[k]? = some p ∧ ∀ i j, m'.cost? i j ≠ m.cost? i j →
    i = p.surrogate ∧ ∃ e x, j = p.firstPublic + e ∧ p.component.exitCost e = .ok (some x)
  again : ∃ m'', (ps.setPublicParts k).apply m' = (.ok (), m'') ∧ m''.Same m'

theorem setPublicParts_published (hexact : ∀ p ∈ ps.toList, p.component.Exact)
    (h : (ps.setPublicParts k).apply m = (.ok (), m')) : ps.Published k m m' := by
  have hrepeated : (ps.setPublicParts k).apply m' = (.ok (), ((ps.setPublicParts k).apply m').2) := by
    refine Prod.ext ?_ rfl
    rw [ps.setPublicParts_outcome k m' m, h]
  have hfirst := (setPublicParts_spec hexact k m).answer (Update.result_eq_ok_iff.mpr ⟨(), h⟩)
  have hsecond := (setPublicParts_spec hexact k m').answer (Update.result_eq_ok_iff.mpr ⟨(), hrepeated⟩)
  obtain ⟨p, hp, -, -, hover⟩ := hfirst
  obtain ⟨p', hp', -, -, hover'⟩ := hsecond
  obtain rfl : p = p' := Option.some.inj (hp.symm.trans hp')
  refine ⟨⟨p, hp, fun i j hne => ?_⟩, _, hrepeated, hover.same hover'⟩
  obtain ⟨hi, x, hx⟩ := hover.changes hne
  obtain ⟨e, he, hcost⟩ := Placement.exitCost_of_surrogateRow hx
  exact ⟨hi, e, x, he, hcost⟩

end Placements

/-- **A command that is refused changes nothing.** Surrogate rows are written in their own columns only, and writing
them twice is writing them once. -/
theorem Update.commands_atomic :
    (∀ {n : Nat} (m : Signature n) (i j : Nat) (x : Int),
      (Signature.insert i j x).Atomic m ∧ (Signature.setDerivative i j x).Atomic m ∧
      (Signature.append i j x).Atomic m ∧ (Signature.declare j i x).Atomic m) ∧
    (∀ (e : Edit) (i j : Nat) (x : Int), (Edit.removeEquation i).Atomic e ∧ (Edit.removeUnknown j).Atomic e ∧
      (Edit.setExisting i j x).Atomic e ∧ (Edit.setNew i j x).Atomic e) ∧
    (∀ (b : ComponentBuilder) (i j : Nat) (x : Int),
      (ComponentBuilder.setPublic i j x).Atomic b ∧ (ComponentBuilder.setPrivate i j x).Atomic b) ∧
    (∀ (p : PartialMatching) (i j : Nat),
      (PartialMatching.unassignRow i).Atomic p ∧ (PartialMatching.unassignColumn j).Atomic p) ∧
    ∀ {n : Nat} (ps : Placements) (k : Nat) (m : Signature n), (ps.setPublicParts k).Atomic m ∧
      ((∀ p ∈ ps.toList, ∃ b : ComponentBuilder, b.Built ∧ b.build = .ok p.component) →
        ∀ m', (ps.setPublicParts k).apply m = (.ok (), m') → ps.Published k m m') := by
  refine ⟨fun m i j x => ?_, fun e i j x => ?_, fun b i j x => ?_, fun p i j => ?_,
    fun ps k m => ⟨?_, fun hbuilt m' h => ?_⟩⟩
  · have hset := (Signature.setDerivative_stores m i j x).atomic
    exact ⟨(Signature.insert_stores m i j x).atomic, hset, (Signature.append_stores m i j x).atomic, hset⟩
  · exact ⟨e.removeEquation_atomic i, e.removeUnknown_atomic j, e.setExisting_atomic i j x, e.setNew_atomic i j x⟩
  · exact ⟨b.setPublic_atomic i j x, b.setPrivate_atomic i j x⟩
  · exact ⟨p.unassignRow_atomic i, p.unassignColumn_atomic j⟩
  · exact ps.setPublicParts_atomic k m
  · exact Placements.setPublicParts_published (fun p hp => Component.exact_of_built (hbuilt p hp)) h

/-- The integrator has two public variables, and there is one column left for them. -/
theorem Update.commands_atomic_pendulum_and_chain :
    (Signature.append 2 1 0).apply Signature.pendulum = (refuse (.invalidIndex .variable 1 3), Signature.pendulum) ∧
    (Edit.removeUnknown 1).apply Edit.pendulumEdit =
      (refuse (.invalidEdit (.variableReferenced 1)), Edit.pendulumEdit) ∧
    (ComponentBuilder.setPublic 0 2 0).apply (.empty 2 1) = (refuse (.invalidIndex .publicVariable 2 2), .empty 2 1) ∧
    (PartialMatching.unassignRow 3).apply (.empty 3) = (refuse (.invalidIndex .equation 3 3), .empty 3) ∧
    (Placements.setPublicParts #[⟨Placements.integrator, 2, 0⟩] 0).apply Signature.pendulum =
      (refuse (.invalidIndex .variable 3 3), Signature.pendulum) ∧
    ∃ m', (Placements.chain.setPublicParts 0).apply Signature.pendulum = (.ok (), m') ∧
      Placements.chain.Published 0 Signature.pendulum m' := by
  obtain ⟨hmatrix, hedit, hbuilder, hpartial, hplaced⟩ := commands_atomic
  refine ⟨?_, ?_, ?_, ?_, ?_, ?_⟩
  · exact (hmatrix _ 2 1 0).2.2.1.apply_eq (by decide +kernel)
  · exact (hedit _ 0 1 0).2.1.apply_eq (by decide +kernel)
  · exact (hbuilder _ 0 2 0).1.apply_eq (by decide +kernel)
  · exact (hpartial _ 3 0).1.apply_eq (by decide +kernel)
  · exact (hplaced _ 0 _).1.apply_eq (by decide +kernel)
  · have hok : ((Placements.chain.setPublicParts 0).apply Signature.pendulum).1 = .ok () := by decide +kernel
    have happly : (Placements.chain.setPublicParts 0).apply Signature.pendulum =
        (.ok (), ((Placements.chain.setPublicParts 0).apply Signature.pendulum).2) :=
      Prod.ext hok rfl
    exact ⟨_, happly, (hplaced Placements.chain 0 Signature.pendulum).2 Placements.chain_built _ happly⟩

end SigmaMethod
