import SigmaMethod.Proofs.Matching.Augment
import SigmaMethod.Signature.Update

/-!
# Attempts one after the other

An attempt starts by clearing what the attempts before it left. That clears everything, since every search keeps the
slots of its frontier in place and writes down each column it labels; neither depends on the matrix, on the matching or
on its potentials. So `augment_preserves` holds after any attempts.
-/

namespace SigmaMethod

variable {n : Nat} {m : Signature n} {a : DualAssignment n} {start : Fin n} {s : Scratch n}

/-- What is left after any number of attempts, whatever they worked on. -/
inductive Scratch.Left : Scratch n → Prop
  | new : Left (empty n)
  | attempt {m : Signature n} {a : DualAssignment n} {start : Fin n} {s : Scratch n} {t : Attempt n} :
      Left s → a.augment m start s = .ok t → Left t.scratch

namespace DualAssignment

/-! ## Clearing -/

theorem search_wf (m : Signature n) (a : DualAssignment n) : ∀ {fuel : Nat} {ready : List (Fin n)} {s : Scratch n},
    s.Coupled → Delivers (a.search m fuel ready s) (fun r => r.scratch.WF) fun _ => True := by
  intro fuel
  induction fuel with
  | zero => exact fun h => .ok h.wf
  | succ fuel ih =>
    intro ready s h
    unfold search
    cases hpop : s.frontier.pop with
    | none => exact .ok h.wf
    | some popped =>
      obtain ⟨j, key, frontier⟩ := popped
      obtain ⟨-, -, hcoupled⟩ := h.pop hpop
      dsimp only
      cases a.rowOf.get j with
      | none => exact .ok hcoupled.wf
      | some i =>
        have hcost : Delivers (m.pairCost i j) (fun _ => True) fun _ => True := by
          unfold Signature.pairCost
          split
          · exact .ok trivial
          · exact .refuse trivial
        refine hcost.bind fun x _ => .bind (.fit (P := fun _ => True) trivial) fun g _ => ?_
        exact (Signature.scanRow_spec hcoupled a.v i key.dist g).widen.bind fun t ht => ih ht.coupled

theorem lower_yields (label : Vector (Option (Label n)) n) (least : Int) :
    ∀ {ready : List (Fin n)} {a : DualAssignment n}, Yields (lower label least ready a) fun _ => True := by
  intro ready
  induction ready with
  | nil => exact .ok trivial
  | cons j ready ih =>
    intro a
    unfold lower
    cases label.get j with
    | none => exact ih
    | some l =>
      refine .bind (.fit (P := fun _ => True) trivial) fun gap _ => ?_
      exact .bind (.fit (P := fun _ => True) trivial) fun x _ => ih

theorem augment_wf (m : Signature n) (a : DualAssignment n) (start : Fin n) (hs : s.WF) :
    Delivers (a.augment m start s) (fun t => t.scratch.WF) fun _ => True := by
  unfold augment
  refine (Signature.reach_spec hs.clear_coupled hs.clear_scanned a.v start).widen.bind fun t ht => ?_
  refine (search_wf m a ht.coupled).bind fun r hr => ?_
  split
  · exact .pure hr
  · exact (lower_yields _ _).widen.bind fun b _ => .pure hr

end DualAssignment

theorem Scratch.Left.wf (h : s.Left) : s.WF := by
  induction h with
  | new => exact Scratch.empty_wf n
  | attempt _ ht ih => exact (DualAssignment.augment_wf _ _ _ ih).answer ht

/-! ## One step -/

/-- **One augmentation step keeps the invariant of the solver.** -/
theorem DualAssignment.augment_preserves (hs : s.Left) (hc : a.Consistent m) (hleast : a.LeastInRows m)
    (hfree : a.columnOf.get start = none) (hno : a.augment m start s ≠ .error .overflow) :
    ∃ t, a.augment m start s = .ok t ∧ t.scratch.Left ∧
      (t.matched = true ∧ t.assignment.Consistent m ∧ t.assignment.LeastInRows m ∧
          (∀ k, t.assignment.v.get k ≤ a.v.get k) ∧
          (∀ i, (t.assignment.columnOf.get i).isSome ↔ (a.columnOf.get i).isSome ∨ i = start) ∧
          (∃ j, a.rowOf.get j = none ∧
            ∀ k, (t.assignment.rowOf.get k).isSome ↔ (a.rowOf.get k).isSome ∨ k = j) ∨
        t.matched = false ∧ t.assignment = a ∧ ∀ σ, ¬ m.IsTransversal σ) := by
  rcases (augment_spec hc hfree hs.wf).cases hno with ⟨t, ht, hattempt⟩ | ⟨-, -, hrefused⟩
  · refine ⟨t, ht, hs.attempt ht, ?_⟩
    cases hmatched : t.matched with
    | true =>
      have h := hattempt.matched hmatched
      exact .inl ⟨rfl, h.consistent, h.leastInRows hleast, h.lowered hleast, h.rows, h.columns⟩
    | false => exact .inr ⟨rfl, hattempt.exhausted hmatched⟩
  · exact hrefused.elim

/-- Both rows prefer the first column. -/
def Signature.contested : Signature 2 :=
  ((Signature.ofIncidences 2 [⟨0, 0, 3⟩, ⟨1, 0, 3⟩, ⟨1, 1, 0⟩]).toOption).getD (.empty 2)

/-- Row 1 takes the first column; the next attempt, on what that one left, moves it to the second. -/
theorem DualAssignment.augment_preserves_contested :
    ∃ t u, (zero 2).augment .contested 1 (.empty 2) = .ok t ∧
      t.scratch.Left ∧ t.assignment.Consistent .contested ∧ t.assignment.LeastInRows .contested ∧
      t.assignment.columnOf.get 0 = none ∧ t.assignment.augment .contested 0 t.scratch ≠ .error .overflow ∧
      t.assignment.augment .contested 0 t.scratch = .ok u ∧ u.assignment.Consistent .contested ∧
      u.assignment.LeastInRows .contested ∧ u.assignment.columnOf.get 0 = some 0 ∧
      u.assignment.columnOf.get 1 = some 1 ∧ u.assignment.v.get 0 = -3 := by
  have hruns : ((zero 2).augment .contested 1 (.empty 2)).toOption.bind (fun t =>
      (t.assignment.augment .contested 0 t.scratch).toOption.map fun u =>
        (t.matched, u.matched, [t.assignment.columnOf.get 0, u.assignment.columnOf.get 0, u.assignment.columnOf.get 1],
          u.assignment.v.get 0)) = some (true, true, [none, some 0, some 1], -3) := by decide +kernel
  have hconsistent : (zero 2).Consistent .contested :=
    ⟨by decide, fun i j hij => by simp [zero, Vector.get] at hij⟩
  have hleast : (zero 2).LeastInRows .contested := fun i j x k y hij => by simp [zero, Vector.get] at hij
  cases hfirst : (zero 2).augment .contested 1 (.empty 2) with
  | error e => simp [hfirst, Except.toOption] at hruns
  | ok t =>
    cases hsecond : t.assignment.augment .contested 0 t.scratch with
    | error e => simp [hfirst, hsecond, Except.toOption] at hruns
    | ok u =>
      simp only [hfirst, hsecond, Except.toOption, Option.bind_some, Option.map_some, Option.some.injEq, Prod.mk.injEq,
        List.cons.injEq] at hruns
      obtain ⟨ht, hu, ⟨h₀, hu₀, hu₁, -⟩, hv⟩ := hruns
      have hno : (zero 2).augment .contested 1 (.empty 2) ≠ .error .overflow := by rw [hfirst]; exact nofun
      have hno' : t.assignment.augment .contested 0 t.scratch ≠ .error .overflow := by rw [hsecond]; exact nofun
      obtain ⟨t', ht', hleft, h⟩ := augment_preserves .new hconsistent hleast (by decide) hno
      cases hfirst.symm.trans ht'
      obtain ⟨-, hc, hl, -⟩ := h.resolve_right fun h => nomatch ht.symm.trans h.1
      obtain ⟨u', hu', -, h'⟩ := augment_preserves hleft hc hl h₀ hno'
      cases hsecond.symm.trans hu'
      obtain ⟨-, hc', hl', -⟩ := h'.resolve_right fun h => nomatch hu.symm.trans h.1
      exact ⟨t, u, rfl, hleft, hc, hl, h₀, hno', hsecond, hc', hl', hu₀, hu₁, hv⟩

end SigmaMethod
