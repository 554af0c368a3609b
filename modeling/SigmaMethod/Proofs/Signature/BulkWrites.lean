import SigmaMethod.Proofs.Refused

/-!
# Bulk writes that are refused

A bulk write tests each incidence when it comes to it. If one is refused, the ones before it have been written and stay.
So a refused bulk write leaves no trace only where the last writes to each position stored what was there.
-/

namespace SigmaMethod

namespace Signature

variable {n : Nat} {m t : Signature n} {i j : Nat} {derivative : Int} {es : List Incidence} {f : Failure}

/-! ## The last writes of a list of incidences -/

theorem lastWritten_append (log later : List (Nat × Nat × Int)) (i j : Nat) :
    lastWritten (log ++ later) i j = (lastWritten later i j).or (lastWritten log i j) := by
  unfold lastWritten
  rw [List.filter_append, List.getLast?_append]
  cases (later.filter fun e => e.1 = i ∧ e.2.1 = j).getLast? with
  | none => simp
  | some e => simp

theorem lastWritten_cons (e : Nat × Nat × Int) (log : List (Nat × Nat × Int)) (i j : Nat) :
    lastWritten (e :: log) i j = (lastWritten log i j).or (if i = e.1 ∧ j = e.2.1 then some e.2.2 else none) := by
  rw [← List.singleton_append, lastWritten_append, ← List.nil_append [e], lastWritten_concat]
  rfl

theorem exists_extend_cost? (m : Signature n) (hall : ∀ e ∈ es, Incident n e.equation e.unknown e.derivative) :
    ∃ t, (extend es).apply m = (.ok (), t) ∧
      ∀ i j, t.cost? i j = (lastWritten (es.map Incidence.entry) i j).or (m.cost? i j) := by
  induction es generalizing m with
  | nil => exact ⟨m, rfl, fun i j => rfl⟩
  | cons e es ih =>
    obtain ⟨he, hall⟩ := List.forall_mem_cons.mp hall
    rw [extend, Update.apply_bind, setDerivative_apply he]
    obtain ⟨t, ht, hcost⟩ := ih (m.put ⟨e.equation, he.1⟩ ⟨e.unknown, he.2.1⟩ (-e.derivative)) hall
    refine ⟨t, ht, fun i j => ?_⟩
    rw [hcost, cost?_put, List.map_cons, lastWritten_cons, Option.or_assoc]
    unfold Incidence.entry
    split <;> simp

/-! ## Where it ends -/

theorem setDerivative_apply_error (h : (setDerivative i j derivative).apply m = (.error f, t)) :
    ¬ Incident n i j derivative ∧ t = m := by
  have hstores := setDerivative_stores m i j derivative
  unfold Stores at hstores
  rw [h] at hstores
  refine ⟨fun hincident => ?_, hstores⟩
  rw [setDerivative_apply hincident] at h
  cases h

theorem extend_apply_error (h : (extend es).apply m = (.error f, t)) :
    ∃ done e rest, es = done ++ e :: rest ∧ (∀ d ∈ done, Incident n d.equation d.unknown d.derivative) ∧
      (extend done).apply m = (.ok (), t) ∧
      (setDerivative e.equation e.unknown e.derivative).apply t = (.error f, t) := by
  induction es generalizing m with
  | nil => cases h
  | cons e es ih =>
    rw [extend, Update.apply_bind] at h
    cases hfirst : (setDerivative e.equation e.unknown e.derivative).apply m with
    | mk outcome m' =>
      rw [hfirst] at h
      cases outcome with
      | error f' =>
        obtain ⟨rfl, rfl⟩ : f' = f ∧ m' = t := by simpa using h
        obtain ⟨-, rfl⟩ := setDerivative_apply_error hfirst
        exact ⟨[], e, es, rfl, fun _ hd => absurd hd List.not_mem_nil, rfl, hfirst⟩
      | ok u =>
        obtain ⟨done, e', rest, rfl, hdone, hok, herror⟩ := ih h
        have he := setDerivative_eq_ok_iff.mp (congrArg Prod.fst hfirst)
        refine ⟨e :: done, e', rest, rfl, List.forall_mem_cons.mpr ⟨he, hdone⟩, ?_, herror⟩
        rw [extend, Update.apply_bind, hfirst]
        exact hok

/-- **A refused bulk write keeps what stands before the refused incidence.** Nothing shows of it only where that stores
what is stored already. -/
theorem extend_refused (h : (extend es).apply m = (.error f, t)) :
    ∃ done e rest, es = done ++ e :: rest ∧ (∀ d ∈ done, Incident n d.equation d.unknown d.derivative) ∧
      ¬ Incident n e.equation e.unknown e.derivative ∧ (extend done).apply m = (.ok (), t) ∧
      (setDerivative e.equation e.unknown e.derivative).apply t = (.error f, t) ∧
      (∀ i j, t.cost? i j = (lastWritten (done.map Incidence.entry) i j).or (m.cost? i j)) ∧
      (t.Same m ↔ ∀ i j x, lastWritten (done.map Incidence.entry) i j = some x → m.cost? i j = some x) := by
  obtain ⟨done, e, rest, hes, hdone, hok, herror⟩ := extend_apply_error h
  obtain ⟨t', ht', hcost⟩ := exists_extend_cost? m hdone
  obtain rfl : t' = t := congrArg Prod.snd (ht'.symm.trans hok)
  have hrefused := (setDerivative_apply_error herror).1
  refine ⟨done, e, rest, hes, hdone, hrefused, hok, herror, hcost, fun hsame i j x hx => ?_,
    fun hstored => same_of_cost? fun i j => ?_⟩
  · rw [← hsame.cost?, hcost, hx, Option.some_or]
  · rw [hcost]
    cases hx : lastWritten (done.map Incidence.entry) i j with
    | none => exact Option.none_or
    | some x => exact (hstored i j x hx).symm

/-- The first incidence changes a cost of the pendulum, and the second one is refused. -/
theorem extend_refused_pendulum :
    ∃ t, (extend [⟨0, 0, 3⟩, ⟨0, 1, -1⟩]).apply pendulum = (refuse (.negativeDerivative 0 1 (-1)), t) ∧
      (extend [⟨0, 0, 3⟩]).apply pendulum = (.ok (), t) ∧ t.cost? 0 0 = some (-3) ∧ ¬ t.Same pendulum := by
  have hincident : Incident 3 0 0 3 := ⟨by decide, by decide, by decide, by decide⟩
  have hrun : (extend [⟨0, 0, 3⟩, ⟨0, 1, -1⟩]).apply pendulum =
      (refuse (.negativeDerivative 0 1 (-1)), pendulum.put 0 0 (-3)) := by
    rw [extend, Update.apply_bind, setDerivative_apply hincident]
    rfl
  obtain ⟨done, e, rest, hes, -, he, hok, -, hcost, hsame⟩ := extend_refused hrun
  obtain ⟨rfl, -⟩ : done = [⟨0, 0, 3⟩] ∧ e :: rest = [⟨0, 1, -1⟩] := by
    cases done with
    | nil =>
      obtain ⟨rfl, -⟩ := List.cons.inj hes
      exact absurd hincident he
    | cons d done =>
      obtain ⟨rfl, hrest⟩ := List.cons.inj hes
      cases done with
      | nil => exact ⟨rfl, hrest.symm⟩
      | cons d done => simp at hrest
  refine ⟨_, hrun, hok, hcost 0 0, fun h => ?_⟩
  have hstored := hsame.mp h 0 0 (-3) rfl
  exact absurd hstored (by decide)

/-- So it need not be atomic: a new matrix has an entry after a bulk write that is refused. -/
theorem extend_not_atomic :
    (extend [⟨0, 0, 0⟩, ⟨2, 0, 0⟩]).apply (empty 2) = (refuse (.invalidIndex .equation 2 2), (empty 2).put 0 0 0) ∧
      ((empty 2).put 0 0 0).nnz = 1 ∧ (empty 2).nnz = 0 ∧ ¬ (extend [⟨0, 0, 0⟩, ⟨2, 0, 0⟩]).Atomic (empty 2) := by
  have hrun : (extend [⟨0, 0, 0⟩, ⟨2, 0, 0⟩]).apply (empty 2) =
      (refuse (.invalidIndex .equation 2 2), (empty 2).put 0 0 0) := by
    rw [extend, Update.apply_bind, setDerivative_apply ⟨by decide, by decide, by decide, by decide⟩]
    rfl
  refine ⟨hrun, rfl, rfl, fun h => ?_⟩
  have hsame := congrArg nnz (h _ _ hrun)
  exact absurd hsame (by decide)

end Signature

end SigmaMethod
