import SigmaMethod.Proofs.Component.Assembled
import SigmaMethod.Proofs.Component.Partition

/-!
# Exits that are taken

A component writes its pairs to rows that no later step writes to. So the columns that it has chosen for its equations
are those of the final matching, and among them is the column of its exit.
-/

namespace SigmaMethod

variable {n dimension row k : Nat} {ps : Placements} {outer : Signature n} {s : Matching} {y : Expanded}

namespace Expansion

variable {x x' : Expansion dimension} {p : Placement}

theorem pairEach_columnOf {internal : List Nat} {place : Nat → Outcome Nat}
    (hx : (internal.zipIdx k).foldlM (fun (x : Expansion dimension) (j, i) => do x.pair (row + i) (← place j)) x =
      .ok x') :
    (∀ r < row + k, x'.columnOf[r]? = x.columnOf[r]?) ∧
      ∀ i j : Nat, internal[i]? = some j → ∃ l, place j = .ok l ∧ x'.columnOf[row + (k + i)]? = some (some l) := by
  induction internal generalizing x k with
  | nil =>
    cases hx
    exact ⟨fun r _ => rfl, fun i j hj => nomatch hj⟩
  | cons j internal ih =>
    rw [List.zipIdx_cons, List.foldlM_cons] at hx
    obtain ⟨y, hy, hx⟩ := bind_eq_ok_iff.mp hx
    obtain ⟨l, hl, hy⟩ := bind_eq_ok_iff.mp hy
    obtain ⟨hbefore, hpairs⟩ := ih hx
    obtain ⟨hsize, _, rfl⟩ := pair_eq_ok_iff.mp hy
    refine ⟨fun r hr => ?_, fun i j' hj' => ?_⟩
    · rw [hbefore r (by omega)]
      exact Array.getElem?_set_ne hsize (by omega)
    · cases i with
      | zero =>
        cases hj'
        refine ⟨l, hl, ?_⟩
        rw [hbefore _ (by omega)]
        exact Array.getElem?_set_self hsize
      | succ i =>
        obtain ⟨l', hl', hcolumn⟩ := hpairs i j' hj'
        refine ⟨l', hl', ?_⟩
        rwa [Nat.add_right_comm, Nat.add_assoc] at hcolumn

def Takes (s : Matching) (p : Placement) (first : Nat) (columnOf : Array (Option Nat)) : Prop :=
  ∃ exit < p.component.publics, s.columnOf[p.surrogate]? = some (p.firstPublic + exit) ∧
    ∃ e < p.component.equations, columnOf[first + e]? = some (some (p.firstPublic + exit))

theorem addComponent_takes (hp : p.component.Exact) (hx : x.addComponent s p k = .ok x') :
    x'.nextRow = x.nextRow + p.component.equations ∧ (∀ r < x.nextRow, x'.columnOf[r]? = x.columnOf[r]?) ∧
      Takes s p x.nextRow x'.columnOf := by
  obtain ⟨y, z, exit, internal, ⟨hcolumn, hexit, hinternal⟩, -, hframe, hz, -, rfl⟩ := addComponent_cases hx
  obtain ⟨hbefore, hpairs⟩ := pairEach_columnOf hz
  have hperm := hp.matching_perm hexit hinternal
  obtain ⟨e, he⟩ := List.getElem?_of_mem (hperm.mem_iff.mpr List.mem_cons_self)
  obtain ⟨l, hl, htaken⟩ := hpairs e _ he
  have hlast : l = p.firstPublic + exit := by
    rw [(columnAt_spec p x.nextColumn _).answer hl]
    unfold Placement.wholeColumn
    rw [if_neg (by omega), Nat.add_sub_cancel_left]
  subst hlast
  refine ⟨rfl, fun r hr => ?_, exit, hexit, hcolumn, e, ?_, ?_⟩
  · dsimp only
    rw [hbefore r hr, hframe]
  · have hlt := (List.getElem?_eq_some_iff.mp he).1
    rw [hperm.length_eq] at hlt
    simpa [Component.equations] using hlt
  · rwa [Nat.zero_add] at htaken

theorem addComponents_take {l : List Placement} (hexact : ∀ p ∈ l, p.component.Exact)
    (hx : (l.zipIdx k).foldlM (fun (x : Expansion dimension) (p, k) => x.addComponent s p k) x = .ok x') :
    (∀ r < x.nextRow, x'.columnOf[r]? = x.columnOf[r]?) ∧
      ∀ i p, l[i]? = some p → Takes s p (x.nextRow + ((l.map (·.component.equations)).take i).sum) x'.columnOf := by
  induction l generalizing x k with
  | nil =>
    cases hx
    exact ⟨fun r _ => rfl, fun i p hp => nomatch hp⟩
  | cons p l ih =>
    rw [List.zipIdx_cons, List.foldlM_cons] at hx
    obtain ⟨y, hy, hx⟩ := bind_eq_ok_iff.mp hx
    obtain ⟨hnext, hbefore, exit, hexit, hcolumn, e, he, htaken⟩ := addComponent_takes (hexact p List.mem_cons_self) hy
    obtain ⟨hrest, htakes⟩ := ih (fun q hq => hexact q (List.mem_cons_of_mem p hq)) hx
    rw [hnext] at hrest htakes
    refine ⟨fun r hr => ?_, fun i q hq => ?_⟩
    · rw [hrest r (by omega), hbefore r hr]
    · cases i with
      | zero =>
        cases hq
        rw [List.take_zero, List.sum_nil, Nat.add_zero]
        exact ⟨exit, hexit, hcolumn, e, he, (hrest _ (by omega)).trans htaken⟩
      | succ i =>
        rw [List.map_cons, List.take_succ_cons, List.sum_cons, ← Nat.add_assoc]
        exact htakes i q hq

end Expansion

namespace Placements

/-- **An expansion that succeeds comes with a perfect matching**, whatever record it starts from, and each component is
solved for the exit that its surrogate row was matched to. -/
theorem expand_matching (hbuilt : ∀ p ∈ ps.toList, ∃ b : ComponentBuilder, b.Built ∧ b.build = .ok p.component)
    (hy : ps.expand outer s = .ok y) :
    y.dimension = n + privates ps.toList ∧ ∃ σ : Equiv.Perm (Fin y.dimension),
      y.columnOf = Array.ofFn (fun i => (σ i).val) ∧ y.rowOf = Array.ofFn (fun j => (σ.symm j).val) ∧
      (∀ i, ∃ x, y.matrix.get i (σ i) = some x) ∧ y.cost = ∑ i, (y.matrix.get i (σ i)).getD 0 ∧
      ∀ k : Fin ps.size, ∃ exit < (ps.get k).component.publics,
        s.columnOf[(ps.get k).surrogate]? = some ((ps.get k).firstPublic + exit) ∧
        ∃ e < (ps.get k).component.equations, ∃ r : Fin y.dimension,
          y.layout.extractedEquation e k = .ok r ∧ (σ r).val = (ps.get k).firstPublic + exit := by
  have hexact : ∀ p ∈ ps.toList, p.component.Exact := fun p hp => Component.exact_of_built (hbuilt p hp)
  obtain ⟨hdimension, hlayout⟩ := expand_layout hy
  obtain ⟨σ, hcolumnOf, hrowOf, hcost, htransversal⟩ := expand_chooses hexact hy
  refine ⟨hdimension, σ, hcolumnOf, hrowOf, htransversal, hcost, fun k => ?_⟩
  obtain ⟨hrange, hdistinct, hcounted, x, z, hx, hz, hfinish⟩ := expand_cases hy
  obtain ⟨exit, hexit, hcolumn, e, he, htaken⟩ :=
    (Expansion.addComponents_take hexact hz).2 k (ps.get k) (by simp)
  rw [(Expansion.copyRows_copied hx).nextRow] at htaken
  obtain ⟨columns, _, _, hcolumns, -, -, rfl⟩ := Expansion.finish_cases hfinish
  change z.columnOf[ps.firstRow n k + e]? = _ at htaken
  rw [← Array.getElem?_toList, hcolumns, List.getElem?_map, Option.map_eq_some_iff] at htaken
  obtain ⟨j, hj, hlast⟩ := htaken
  cases hlast
  have hget : (Array.ofFn fun i => (σ i).val)[ps.firstRow n k + e]? = some ((ps.get k).firstPublic + exit) := by
    rw [← hcolumnOf, ← Array.getElem?_toList]
    exact hj
  rw [Array.getElem?_ofFn, Option.dite_none_right_eq_some] at hget
  obtain ⟨hr, hσ⟩ := hget
  refine ⟨exit, hexit, hcolumn, e, he, ⟨_, hr⟩, ?_, Option.some.inj hσ⟩
  rw [hlayout, layout_extractedEquation hrange hdistinct hcounted k, if_pos he]

theorem expand_matching_chain : ∃ y, chain.expand chainOuter chainMatching = .ok y ∧
    ∃ σ : Equiv.Perm (Fin y.dimension), y.columnOf = Array.ofFn (fun i => (σ i).val) ∧
      ∃ e < 2, ∃ r : Fin y.dimension, y.layout.extractedEquation e 1 = .ok r ∧ (σ r).val = 2 := by
  obtain ⟨y, hy⟩ := exists_chain_expanded
  obtain ⟨-, σ, hcolumnOf, -, -, -, htaken⟩ := expand_matching chain_built hy
  obtain ⟨exit, -, hexit, e, he, r, hr, hσ⟩ := htaken ⟨1, by decide⟩
  obtain rfl : exit = 1 := by
    change some 2 = some (1 + exit) at hexit
    have := Option.some.inj hexit
    omega
  exact ⟨y, hy, σ, hcolumnOf, e, he, r, hr, hσ⟩

end Placements

end SigmaMethod
