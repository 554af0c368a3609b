import SigmaMethod.Proofs.Matching.SearchTree

/-!
# Augmenting a dual assignment

`augment_spec`: an attempt to match one more row either matches it, and keeps all that the solver relies on, or leaves
the assignment alone, and then there is no perfect matching. Lowering the potentials of the scanned columns makes the
entries along the path, old and new, least in their rows.
-/

namespace SigmaMethod

variable {n : Nat} {m : Signature n} {start : Fin n} {ready : List (Fin n)} {label : Vector (Option (Label n)) n}

namespace DualAssignment

variable {a b : DualAssignment n} {i j k : Fin n}

/-! ## Potentials -/

structure Lowered (label : Vector (Option (Label n)) n) (least : Int) (ready : List (Fin n))
    (a b : DualAssignment n) : Prop where
  columnOf : b.columnOf = a.columnOf
  rowOf : b.rowOf = a.rowOf
  kept : ∀ k, k ∉ ready → b.v.get k = a.v.get k
  lowered : ∀ k ∈ ready, ∀ l, label.get k = some l → b.v.get k = a.v.get k + (l.dist - least)

theorem Lowered.skip {least : Int} (h : Lowered label least ready a b) (hj : label.get j = none) :
    Lowered label least (j :: ready) a b where
  columnOf := h.columnOf
  rowOf := h.rowOf
  kept k hk := h.kept k fun hr => hk (List.mem_cons_of_mem j hr)
  lowered k hk l hl := by
    rcases List.mem_cons.mp hk with rfl | hk
    · rw [hj] at hl
      cases hl
    · exact h.lowered k hk l hl

theorem Lowered.cons {least : Int} {l : Label n} (hl : label.get j = some l) (hj : j ∉ ready)
    (h : Lowered label least ready (a.setPotential j (a.v.get j + (l.dist - least))) b) :
    Lowered label least (j :: ready) a b where
  columnOf := h.columnOf
  rowOf := h.rowOf
  kept k hk := by
    rw [h.kept k fun hr => hk (List.mem_cons_of_mem j hr), setPotential_v, if_neg]
    exact fun e => hk (e ▸ List.mem_cons_self)
  lowered k hk l' hl' := by
    rcases List.mem_cons.mp hk with rfl | hk
    · rw [hl] at hl'
      cases hl'
      rw [h.kept k hj, setPotential_v, if_pos rfl]
    · rw [h.lowered k hk l' hl', setPotential_v, if_neg]
      exact fun e => hj (e ▸ hk)

theorem lower_spec (label : Vector (Option (Label n)) n) (least : Int) :
    ∀ {ready : List (Fin n)} {a : DualAssignment n},
    ready.Nodup → Yields (lower label least ready a) (Lowered label least ready a) := by
  intro ready
  induction ready with
  | nil => exact fun _ => .ok ⟨rfl, rfl, fun _ _ => rfl, fun _ hk => nomatch hk⟩
  | cons j ready ih =>
    intro a hnodup
    obtain ⟨hj, hnodup⟩ := List.nodup_cons.mp hnodup
    unfold lower
    cases hl : label.get j with
    | none => exact (ih hnodup).imp fun b hb => hb.skip hl
    | some l =>
      refine .bind (.fit rfl) fun gap hgap => .bind (.fit rfl) fun x hx => ?_
      subst hx hgap
      exact (ih hnodup).imp fun b hb => .cons hl hj hb

/-! ## Pairs -/

def HoleAt (a : DualAssignment n) (j : Fin n) : Prop :=
  ∀ i k, a.columnOf.get i = some k ↔ a.rowOf.get k = some i ∧ k ≠ j

theorem HoleAt.pair_of_some (h : a.HoleAt j) (hi : a.columnOf.get i = some k) : (a.pair i j).HoleAt k := by
  intro r l
  have hkj := ((h i k).mp hi).2
  rw [pair_columnOf, pair_rowOf]
  have hrl := h r l
  have hil := h i l
  grind

theorem HoleAt.pair_of_none (h : a.HoleAt j) (hi : a.columnOf.get i = none) (r l : Fin n) :
    (a.pair i j).columnOf.get r = some l ↔ (a.pair i j).rowOf.get l = some r := by
  rw [pair_columnOf, pair_rowOf]
  have hrl := h r l
  have hil := h i l
  grind

structure Shifted (label : Vector (Option (Label n)) n) (start j : Fin n) (older : List (Fin n))
    (a b : DualAssignment n) : Prop where
  v : b.v = a.v
  agree : ∀ i k, b.columnOf.get i = some k ↔ b.rowOf.get k = some i
  rows : ∀ i, (b.columnOf.get i).isSome ↔ (a.columnOf.get i).isSome ∨ i = start
  columns : ∀ k, (b.rowOf.get k).isSome ↔ (a.rowOf.get k).isSome ∨ k = j
  pairs : ∀ i k, b.columnOf.get i = some k → a.columnOf.get i = some k ∨
    ∃ l, label.get k = some l ∧ l.pred = i ∧ (k = j ∨ k ∈ older)

/-- At its end the path reaches the start, which had no column. -/
theorem Shifted.last {older : List (Fin n)} {l : Label n} (hl : label.get j = some l) (hstart : l.pred = start)
    (hhole : a.HoleAt j) (hfree : a.columnOf.get start = none) : Shifted label start j older a (a.pair start j) := by
  refine ⟨rfl, hhole.pair_of_none hfree, fun i => ?_, fun k => ?_, fun i k hik => ?_⟩
  · rw [pair_columnOf]
    by_cases hi : i = start <;> simp [hi]
  · rw [pair_rowOf]
    by_cases hk : k = j <;> simp [hk]
  · rw [pair_columnOf] at hik
    split at hik
    · cases hik
      exact .inr ⟨l, hl, by rw [hstart, ‹i = start›], .inl rfl⟩
    · exact .inl hik

/-- On its way the path takes column `k` from the row over which `j` is labelled. -/
theorem Shifted.cons {older older' : List (Fin n)} {l : Label n} (hl : label.get j = some l)
    (hcol : a.columnOf.get l.pred = some k) (hrow : a.rowOf.get k = some l.pred) (hk : k ∈ older)
    (hsub : ∀ k' ∈ older', k' ∈ older) (h : Shifted label start k older' (a.pair l.pred j) b) :
    Shifted label start j older a b := by
  refine ⟨h.v, h.agree, fun i => ?_, fun k' => ?_, fun i k' hik => ?_⟩
  · rw [h.rows, pair_columnOf]
    by_cases hi : i = l.pred <;> simp [hi, hcol]
  · rw [h.columns, pair_rowOf]
    by_cases hk' : k' = j
    · simp [hk']
    · by_cases hkk : k' = k
      · simp [hkk, hrow]
      · simp [hk', hkk]
  · rcases h.pairs i k' hik with hold | ⟨lk', hlk', hp, hk'⟩
    · rw [pair_columnOf] at hold
      split at hold
      · cases hold
        exact .inr ⟨l, hl, by rw [‹i = l.pred›], .inl rfl⟩
      · exact .inl hold
    · refine .inr ⟨lk', hlk', hp, .inr ?_⟩
      rcases hk' with rfl | hk'
      · exact hk
      · exact hsub k' hk'

theorem shift_spec {a₀ : DualAssignment n} (tree : Tree m a₀ start ready label) :
    ∀ {fuel : Nat} {newer older : List (Fin n)} {j : Fin n} {l : Label n} {a : DualAssignment n},
      ready = newer ++ older → older.length < fuel → j ∉ older → label.get j = some l →
      (l.pred = start ∨ ∃ k ∈ older, a₀.rowOf.get k = some l.pred) → a.HoleAt j →
      (∀ k ∈ older, a.rowOf.get k = a₀.rowOf.get k) → a.columnOf.get start = none →
      Shifted label start j older a (shift label start fuel j a) := by
  intro fuel
  induction fuel with
  | zero => intro newer older j l a _ hfuel; omega
  | succ fuel ih =>
    intro newer older j l a hready hfuel hj hl hpred hhole hsame hfree
    unfold shift
    simp only [hl]
    by_cases hstart : l.pred = start
    · rw [hstart, hfree]
      exact .last hl hstart hhole hfree
    · -- the row before `j` gives up an older column, where the path goes on
      obtain ⟨k, hk, hrow⟩ := hpred.resolve_left hstart
      have hrow' : a.rowOf.get k = some l.pred := (hsame k hk).trans hrow
      have hcol : a.columnOf.get l.pred = some k := (hhole l.pred k).mpr ⟨hrow', fun e => hj (e ▸ hk)⟩
      obtain ⟨newer', older', rfl⟩ := List.append_of_mem hk
      simp only [hcol, hstart, ite_false]
      have hready' : ready = (newer ++ newer') ++ k :: older' := by rw [hready, List.append_assoc]
      have hready'' : ready = (newer ++ newer' ++ [k]) ++ older' := by rw [hready', List.append_assoc _ [k]]; rfl
      have hnodup : (k :: older').Nodup := tree.nodup.sublist (hready' ▸ List.sublist_append_right _ _)
      obtain ⟨lk, hlk⟩ := tree.labelled k (hready ▸ List.mem_append_right _ hk)
      have hmem : ∀ k' ∈ older', k' ∈ newer' ++ k :: older' := fun k' hk' =>
        List.mem_append_right _ (List.mem_cons_of_mem k hk')
      have hfuel' : older'.length < fuel := by
        simp only [List.length_append, List.length_cons] at hfuel
        omega
      have hsame' : ∀ k' ∈ older', (a.pair l.pred j).rowOf.get k' = a₀.rowOf.get k' := by
        intro k' hk'
        have hne : k' ≠ j := fun e => hj (e ▸ hmem k' hk')
        rw [pair_rowOf, if_neg hne]
        exact hsame k' (hmem k' hk')
      have hfree' : (a.pair l.pred j).columnOf.get start = none := by
        rw [pair_columnOf, if_neg (Ne.symm hstart)]
        exact hfree
      exact .cons hl hcol hrow' hk hmem (ih hready'' hfuel' (List.nodup_cons.mp hnodup).1 hlk
        (tree.earlier _ k older' hready' lk hlk) (hhole.pair_of_some hcol) hsame' hfree')

/-! ## One attempt -/

structure Augmented (m : Signature n) (start : Fin n) (a b : DualAssignment n) : Prop where
  consistent : b.Consistent m
  rows : ∀ i, (b.columnOf.get i).isSome ↔ (a.columnOf.get i).isSome ∨ i = start
  columns : ∃ j, a.rowOf.get j = none ∧ ∀ k, (b.rowOf.get k).isSome ↔ (a.rowOf.get k).isSome ∨ k = j
  lowered : a.LeastInRows m → ∀ k, b.v.get k ≤ a.v.get k
  leastInRows : a.LeastInRows m → b.LeastInRows m

section found

variable {r : Reached n} {dist x : Int} {low : DualAssignment n}

theorem target_not_mem (hf : Reached.Valid m a start r) (hr : r.target = some (j, dist)) : j ∉ r.ready := by
  intro hj
  obtain ⟨i, hi⟩ := hf.tree.owned j hj
  rw [(hf.free j dist hr).1] at hi
  cases hi

/-- All columns on the path to the target pay what they are nearer than the target. -/
theorem Lowered.eq_add (h : Lowered r.scratch.label dist r.ready a low) (hf : Reached.Valid m a start r)
    (hr : r.target = some (j, dist)) {l : Label n} (hl : r.scratch.label.get k = some l) (hk : k = j ∨ k ∈ r.ready) :
    low.v.get k = a.v.get k + (l.dist - dist) := by
  rcases hk with rfl | hk
  · obtain ⟨-, ⟨l', hl', rfl⟩, -⟩ := hf.free k dist hr
    rw [hl] at hl'
    cases hl'
    rw [h.kept k (target_not_mem hf hr)]
    omega
  · exact h.lowered k hk l hl

theorem Lowered.le (h : Lowered r.scratch.label dist r.ready a low) (hf : Reached.Valid m a start r)
    (hr : r.target = some (j, dist)) (hleast : a.LeastInRows m) (k : Fin n) : low.v.get k ≤ a.v.get k := by
  obtain ⟨-, ⟨lj, hlj, rfl⟩, -⟩ := hf.free j dist hr
  by_cases hk : k ∈ r.ready
  · obtain ⟨lk, hlk⟩ := hf.tree.labelled k hk
    have h₁ := h.lowered k hk lk hlk
    have h₂ := (hf.shortest hleast).nearer k hk j (target_not_mem hf hr) lk lj hlk hlj
    omega
  · rw [h.kept k hk]

/-- On the searched side, all entries are at least as far away as the target. -/
theorem Lowered.far (h : Lowered r.scratch.label dist r.ready a low) (hf : Reached.Valid m a start r)
    (hr : r.target = some (j, dist)) (hleast : a.LeastInRows m) {c y : Int}
    (hi : OffersFrom m a start r.ready r.scratch.label i c) (hy : m.get i k = some y) : dist - c ≤ y - low.v.get k := by
  obtain ⟨lk, hlk⟩ := hf.tree.closed i c k y hi hy
  have h₁ := (hf.shortest hleast).least i c k y lk hi hy hlk
  by_cases hk : k ∈ r.ready
  · have h₂ := h.lowered k hk lk hlk
    omega
  · have h₂ := h.kept k hk
    have h₃ := (hf.free j dist hr).2.2 k lk hk hlk
    omega

/-- The pairs of a searched row, old and new, are exactly as far away as the target. -/
theorem Lowered.near (h : Lowered r.scratch.label dist r.ready a low) (hf : Reached.Valid m a start r)
    (hc : a.Consistent m) (hr : r.target = some (j, dist)) (hx : m.get i k = some x)
    (hik : k ∈ r.ready ∧ a.columnOf.get i = some k ∨
      ∃ l, r.scratch.label.get k = some l ∧ l.pred = i ∧ (k = j ∨ k ∈ r.ready)) :
    ∃ c, OffersFrom m a start r.ready r.scratch.label i c ∧ x - low.v.get k = dist - c := by
  rcases hik with ⟨hk, hold⟩ | ⟨l, hl, rfl, hk⟩
  · obtain ⟨l, hl⟩ := hf.tree.labelled k hk
    refine ⟨l.dist + a.v.get k - x, .inr ⟨k, hk, l, x, (hc.agree i k).mp hold, hl, hx, rfl⟩, ?_⟩
    have := h.lowered k hk l hl
    omega
  · obtain ⟨c, z, hi, hz, hd⟩ := hf.tree.offered k l hl
    rw [hx] at hz
    cases hz
    have := h.eq_add hf hr hl hk
    exact ⟨c, hi, by omega⟩

theorem Augmented.of_found (hf : Reached.Valid m a start r) (hc : a.Consistent m) (hr : r.target = some (j, dist))
    (hlow : Lowered r.scratch.label dist r.ready a low) (hb : Shifted r.scratch.label start j r.ready low b) :
    Augmented m start a b := by
  have hpairs : ∀ i k, b.columnOf.get i = some k → a.columnOf.get i = some k ∨
      ∃ l, r.scratch.label.get k = some l ∧ l.pred = i ∧ (k = j ∨ k ∈ r.ready) := by
    intro i k hik
    have := hb.pairs i k hik
    rwa [hlow.columnOf] at this
  refine ⟨⟨hb.agree, fun i k hik => ?_⟩, fun i => ?_, ⟨j, (hf.free j dist hr).1, fun k => ?_⟩, fun hleast k => ?_,
    fun hleast => ?_⟩
  · rcases hpairs i k hik with hold | ⟨l, hl, rfl, -⟩
    · exact hc.entry i k hold
    · obtain ⟨-, x, -, hx, -⟩ := hf.tree.offered k l hl
      exact ⟨x, hx⟩
  · rw [hb.rows, hlow.columnOf]
  · rw [hb.columns, hlow.rowOf]
  · rw [hb.v]
    exact hlow.le hf hr hleast k
  · intro i k x k' y hik hx hy
    rw [hb.v]
    have hsearched : (k ∈ r.ready ∧ a.columnOf.get i = some k ∨
        ∃ l, r.scratch.label.get k = some l ∧ l.pred = i ∧ (k = j ∨ k ∈ r.ready)) →
        x - low.v.get k ≤ y - low.v.get k' := by
      intro h
      obtain ⟨c, hi, hxc⟩ := hlow.near hf hc hr hx h
      exact hxc ▸ hlow.far hf hr hleast hi hy
    rcases hpairs i k hik with hold | hnew
    · by_cases hk : k ∈ r.ready
      · exact hsearched (.inl ⟨hk, hold⟩)
      · -- a pair outside the search keeps its potential, and no other rises
        have h₁ := hleast i k x k' y hold hx hy
        have h₂ := hlow.le hf hr hleast k'
        rw [hlow.kept k hk]
        omega
    · exact hsearched (.inr hnew)

end found

structure Attempted (m : Signature n) (start : Fin n) (a : DualAssignment n) (t : Attempt n) : Prop where
  scratch : t.scratch.WF
  matched : t.matched = true → Augmented m start a t.assignment
  exhausted : t.matched = false → t.assignment = a ∧ ∀ σ, ¬ m.IsTransversal σ

/-- **One augmentation step.** -/
theorem augment_spec (hc : a.Consistent m) (hfree : a.columnOf.get start = none) {s : Scratch n} (hs : s.WF) :
    Yields (a.augment m start s) (Attempted m start a) := by
  unfold augment
  refine (Signature.reach_spec hs.clear_coupled hs.clear_scanned a.v start).bind fun t ht => ?_
  refine ((searching_of_reach hs ht).search_spec hc (by simp)).bind fun r hr => ?_
  cases htarget : r.target with
  | none => exact .pure ⟨hr.wf, fun h => (nomatch h), fun _ => ⟨rfl, hr.not_isTransversal hc hfree htarget⟩⟩
  | some target =>
    obtain ⟨j, dist⟩ := target
    refine (lower_spec r.scratch.label dist hr.tree.nodup).bind fun low hlow => .pure ?_
    obtain ⟨hjfree, ⟨l, hl, -⟩, -⟩ := hr.free j dist htarget
    have hjready := target_not_mem hr htarget
    have hpred : l.pred = start ∨ ∃ k ∈ r.ready, a.rowOf.get k = some l.pred := by
      obtain ⟨b, x, hoffers, -⟩ := hr.tree.offered j l hl
      rcases hoffers with ⟨hp, -⟩ | ⟨k, hk, l', y, hr, -⟩
      · exact .inl hp
      · exact .inr ⟨k, hk, hr⟩
    have hlen := hr.tree.length_lt hjready
    have hhole : low.HoleAt j := by
      intro i k
      rw [hlow.columnOf, hlow.rowOf, hc.agree, iff_self_and]
      rintro hk rfl
      rw [hjfree] at hk
      cases hk
    have hshift := shift_spec hr.tree (List.nil_append r.ready).symm hlen hjready hl hpred hhole
      (fun k _ => by rw [hlow.rowOf]) (by rw [hlow.columnOf]; exact hfree)
    exact ⟨hr.wf, fun _ => .of_found hr hc htarget hlow hshift, fun h => nomatch h⟩

end DualAssignment

end SigmaMethod
