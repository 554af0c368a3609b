import SigmaMethod.Proofs.Component.Expand

/-!
# Steps of an expansion

What the steps of an expansion have done when they succeed, whatever outer problem and matching they started from.
Entries reach the matrix only, and pairs the matching only. An outer row that stays is the next row and a component
takes the next rows and private columns, so the layout of an expansion depends on the placements alone.
-/

namespace SigmaMethod

variable {α : Type} {n dimension : Nat}

namespace Expansion

variable {x x' : Expansion dimension} {outer : Signature n} {s : Matching} {p : Placement} {surrogates : List Nat}
  {i j k : Nat}

theorem pair_eq_ok_iff : x.pair i j = .ok x' ↔ ∃ (hi : i < x.columnOf.size) (hj : j < x.rowOf.size),
    x' = { x with columnOf := x.columnOf.set i (some j), rowOf := x.rowOf.set j (some i) } := by
  unfold Expansion.pair
  simp only [bind_eq_ok_iff, writeAt_eq_ok_iff]
  constructor
  · rintro ⟨_, ⟨hi, rfl⟩, _, ⟨hj, rfl⟩, hx⟩
    cases hx
    exact ⟨hi, hj, rfl⟩
  · rintro ⟨hi, hj, rfl⟩
    exact ⟨_, ⟨hi, rfl⟩, _, ⟨hj, rfl⟩, rfl⟩

theorem pair_frame (hx : x.pair i j = .ok x') : x' = { x with columnOf := x'.columnOf, rowOf := x'.rowOf } := by
  obtain ⟨_, _, rfl⟩ := pair_eq_ok_iff.mp hx
  rfl

theorem insert_frame {c : Int} (hx : x.insert i j c = .ok x') : x' = { x with matrix := x'.matrix } :=
  ((x.insert_writes i j c).answer hx).1

theorem insertEach_frame {l : List α} {step : Expansion dimension → α → Outcome (Expansion dimension)}
    (hstep : ∀ a ∈ l, ∀ y y', step y a = .ok y' → y' = { y with matrix := y'.matrix }) (hx : l.foldlM step x = .ok x') :
    x' = { x with matrix := x'.matrix } := by
  refine foldlM_invariant (I := fun y : Expansion dimension => y = { x with matrix := y.matrix })
    (fun a ha y y' hy hy' => ?_) rfl hx
  rw [hstep a ha y y' hy', hy]

theorem pairEach_frame {l : List α} {step : Expansion dimension → α → Outcome (Expansion dimension)}
    (hstep : ∀ a ∈ l, ∀ y y', step y a = .ok y' → y' = { y with columnOf := y'.columnOf, rowOf := y'.rowOf })
    (hx : l.foldlM step x = .ok x') : x' = { x with columnOf := x'.columnOf, rowOf := x'.rowOf } := by
  refine foldlM_invariant (I := fun y : Expansion dimension => y = { x with columnOf := y.columnOf, rowOf := y.rowOf })
    (fun a ha y y' hy hy' => ?_) rfl hx
  rw [hstep a ha y y' hy', hy]

/-! ## Rows and components -/

theorem copyRow_cases (hi : i ∉ surrogates) (hx : copyRow outer s surrogates x i = .ok x') :
    ∃ (y z : Expansion dimension) (j : Nat),
      (outer.row i).foldlM (fun (y : Expansion dimension) (l, cost) => y.insert x.nextRow l cost) x = .ok y ∧
      y = { x with matrix := y.matrix } ∧ s.columnOf[i]? = some j ∧ y.pair x.nextRow j = .ok z ∧
      ∃ hi : i < x.layout.outerRows.size, x' = { z with
        nextRow := x.nextRow + 1
        layout := { x.layout with outerRows := x.layout.outerRows.set i (some x.nextRow) hi } } := by
  unfold copyRow at hx
  rw [if_neg hi] at hx
  obtain ⟨y, hy, hx⟩ := bind_eq_ok_iff.mp hx
  obtain ⟨j, hj, hx⟩ := bind_eq_ok_iff.mp hx
  obtain ⟨z, hz, hx⟩ := bind_eq_ok_iff.mp hx
  obtain ⟨_, hrows, hx⟩ := bind_eq_ok_iff.mp hx
  obtain ⟨hsize, rfl⟩ := writeAt_eq_ok_iff.mp hrows
  cases hx
  have hframe := insertEach_frame (fun e _ b b' hb => insert_frame hb) hy
  have hlayout : z.layout = x.layout := by rw [pair_frame hz, hframe]
  refine ⟨y, z, j, hy, hframe, lookAt_eq_ok_iff.mp hj, hz, hlayout ▸ hsize, ?_⟩
  simp only [hlayout]

theorem exitOf_eq_ok_iff {exit : Nat} : exitOf s k p = .ok exit ↔
    s.columnOf[p.surrogate]? = some (p.firstPublic + exit) ∧ exit < p.component.publics := by
  unfold exitOf
  rw [bind_eq_ok_iff]
  constructor
  · rintro ⟨j, hj, h⟩
    rw [lookAt_eq_ok_iff] at hj
    split at h
    · rename_i hpublic
      cases h
      simp only [Bool.and_eq_true, decide_eq_true_eq] at hpublic
      rw [hj, Nat.add_sub_cancel' hpublic.1]
      exact ⟨rfl, hpublic.2⟩
    · obtain ⟨_, -, h⟩ := bind_eq_ok_iff.mp h
      cases h
  · rintro ⟨hj, hexit⟩
    refine ⟨_, lookAt_eq_ok_iff.mpr hj, ?_⟩
    rw [if_pos (by simp [hexit]), Nat.add_sub_cancel_left]
    rfl

theorem addComponent_cases (hx : x.addComponent s p k = .ok x') :
    ∃ (y z : Expansion dimension) (exit : Nat) (internal : List Nat),
      (s.columnOf[p.surrogate]? = some (p.firstPublic + exit) ∧ exit < p.component.publics ∧
        p.component.matchings[exit]? = some (some internal)) ∧
      p.component.entries.foldlM (fun (y : Expansion dimension) (i, j, cost) => do
        y.insert (x.nextRow + i) (← columnAt p x.nextColumn j) cost) x = .ok y ∧
      y = { x with matrix := y.matrix } ∧
      internal.zipIdx.foldlM (fun (y : Expansion dimension) (j, i) => do
        y.pair (x.nextRow + i) (← columnAt p x.nextColumn j)) y = .ok z ∧
      z = { y with columnOf := z.columnOf, rowOf := z.rowOf } ∧
      x' = { z with
        nextRow := x.nextRow + p.component.equations
        nextColumn := x.nextColumn + p.component.privates
        layout := { x.layout with
          componentRows := x.layout.componentRows.push x.nextRow
          componentColumns := x.layout.componentColumns.push x.nextColumn
          privates := x.layout.privates.push p.component.privates } } := by
  unfold addComponent at hx
  obtain ⟨exit, hexit, hx⟩ := bind_eq_ok_iff.mp hx
  obtain ⟨internal, hinternal, hx⟩ := bind_eq_ok_iff.mp hx
  cases internal with
  | none => cases hx
  | some internal =>
    obtain ⟨y, hy, hx⟩ := bind_eq_ok_iff.mp hx
    obtain ⟨z, hz, hx⟩ := bind_eq_ok_iff.mp hx
    cases hx
    unfold Component.matching at hinternal
    obtain ⟨_, -, hinternal⟩ := bind_eq_ok_iff.mp hinternal
    obtain ⟨hcolumn, hlt⟩ := exitOf_eq_ok_iff.mp hexit
    have hframe : y = { x with matrix := y.matrix } := insertEach_frame (fun e _ b b' hb => by
      obtain ⟨l, -, hb⟩ := bind_eq_ok_iff.mp hb
      exact insert_frame hb) hy
    have hpairs : z = { y with columnOf := z.columnOf, rowOf := z.rowOf } := pairEach_frame (fun e _ b b' hb => by
      obtain ⟨l, -, hb⟩ := bind_eq_ok_iff.mp hb
      exact pair_frame hb) hz
    have hlayout : z.layout = x.layout := by rw [hpairs, hframe]
    refine ⟨y, z, exit, internal, ⟨hcolumn, hlt, lookAt_eq_ok_iff.mp hinternal⟩, hy, hframe, hz, hpairs, ?_⟩
    rw [hlayout]

theorem finish_cases {y : Expanded} (hy : x.finish = .ok y) : ∃ (columns rows : List Nat) (cost : Int),
    x.columnOf.toList = columns.map some ∧ x.rowOf.toList = rows.map some ∧
      columns.zipIdx.foldlM (fun total (j, i) => do
        match x.matrix.cost? i j with
        | some y => fit (total + y)
        | none => refuse (.compression (.absentEntry i j))) 0 = .ok cost ∧
      y = ⟨dimension, x.matrix, columns.toArray, rows.toArray, cost, x.layout⟩ := by
  unfold finish at hy
  obtain ⟨columns, hcolumns, hy⟩ := bind_eq_ok_iff.mp hy
  obtain ⟨rows, hrows, hy⟩ := bind_eq_ok_iff.mp hy
  obtain ⟨cost, hcost, hy⟩ := bind_eq_ok_iff.mp hy
  cases hy
  exact ⟨columns, rows, cost, allPartners_eq_ok_iff.mp hcolumns, allPartners_eq_ok_iff.mp hrows, hcost, rfl⟩

end Expansion

/-! ## Whole expansions -/

namespace Placements

open Expansion

variable {ps : Placements} {outer : Signature n} {s : Matching} {y : Expanded}

theorem checkSurrogates_eq_ok_iff {seen : List Nat} {l : List Placement} {u : Unit} :
    checkSurrogates n seen l = .ok u ↔ (∀ p ∈ l, p.surrogate < n) ∧ (∀ p ∈ l, p.surrogate ∉ seen) ∧
      (l.map (·.surrogate)).Nodup := by
  induction l generalizing seen with
  | nil => simp [checkSurrogates]
  | cons p l ih =>
    unfold checkSurrogates
    rw [List.forall_mem_cons, List.forall_mem_cons, List.map_cons, List.nodup_cons]
    simp only [refuse_bind, bind_eq_ok_iff, checkIndex_eq_ok_iff, exists_const, ite_refuse_eq_ok_iff, ih,
      List.mem_cons, List.mem_map, not_or]
    constructor
    · rintro ⟨hrange, hseen, hranges, hnew, hnodup⟩
      exact ⟨⟨hrange, hranges⟩, ⟨hseen, fun q hq => (hnew q hq).2⟩,
        fun h => h.elim fun q hq => (hnew q hq.1).1 hq.2, hnodup⟩
    · rintro ⟨⟨hrange, hranges⟩, ⟨hseen, hseens⟩, hnew, hnodup⟩
      exact ⟨hrange, hseen, hranges, fun q hq => ⟨fun heq => hnew ⟨q, hq, heq⟩, hseens q hq⟩, hnodup⟩

theorem expand_cases (hy : ps.expand outer s = .ok y) :
    (∀ p ∈ ps.toList, p.surrogate < n) ∧ (ps.toList.map (·.surrogate)).Nodup ∧
      n + privates ps.toList < 18446744073709551616 ∧ ∃ x z : Expansion (n + privates ps.toList),
        (List.range n).foldlM (copyRow outer s (ps.toList.map (·.surrogate))) (start _ n) = .ok x ∧
        ps.toList.zipIdx.foldlM (fun x (p, k) => x.addComponent s p k) x = .ok z ∧ z.finish = .ok y := by
  unfold expand at hy
  simp only [refuse_bind, ite_refuse_eq_ok_iff] at hy
  obtain ⟨-, hy⟩ := hy
  obtain ⟨_, hcheck, hy⟩ := bind_eq_ok_iff.mp hy
  obtain ⟨hrange, -, hdistinct⟩ := checkSurrogates_eq_ok_iff.mp hcheck
  obtain ⟨extra, hextra, hy⟩ := bind_eq_ok_iff.mp hy
  obtain ⟨dimension, hdimension, hy⟩ := bind_eq_ok_iff.mp hy
  obtain rfl : extra = privates ps.toList := (extra_spec.answer hextra).trans (Nat.zero_add _)
  obtain ⟨rfl, hcounted⟩ := (Delivers.fitIndex_lt (F := fun _ => True)).answer hdimension
  obtain ⟨x, hx, hy⟩ := bind_eq_ok_iff.mp hy
  obtain ⟨z, hz, hy⟩ := bind_eq_ok_iff.mp hy
  exact ⟨hrange, hdistinct, hcounted, x, z, hx, hz, hy⟩

end Placements

end SigmaMethod
