import SigmaMethod.Proofs.Component.Compressed
import SigmaMethod.Proofs.Component.Steps
import SigmaMethod.Proofs.Edit.Faithful

/-!
# Where the rows and columns of components are

Rows and private columns are given out block by block. The layout of an expansion that succeeds is a function of the
placements alone, and its queries number the outer rows that stay and the equations of all components, each line once;
and likewise the outer columns and the private variables.
-/

namespace SigmaMethod

variable {n dimension first k : Nat} {sizes : List Nat} {ps : Placements} {outer : Signature n} {s : Matching}

/-! ## Blocks -/

def starts (first : Nat) : List Nat → List Nat
  | [] => []
  | size :: sizes => first :: starts (first + size) sizes

@[simp] theorem starts_length (first : Nat) (sizes : List Nat) : (starts first sizes).length = sizes.length := by
  induction sizes generalizing first with
  | nil => rfl
  | cons size sizes ih => rw [starts, List.length_cons, ih, List.length_cons]

theorem starts_getElem? (hk : k < sizes.length) : (starts first sizes)[k]? = some (first + (sizes.take k).sum) := by
  induction sizes generalizing first k with
  | nil => exact absurd hk (Nat.not_lt_zero k)
  | cons size sizes ih =>
    cases k with
    | zero => rfl
    | succ k =>
      rw [starts, List.getElem?_cons_succ, ih (Nat.lt_of_succ_lt_succ hk), List.take_succ_cons, List.sum_cons,
        Nat.add_assoc]

abbrev Placements.get (ps : Placements) (k : Fin ps.size) : Placement := ps[k]

theorem finSigmaFinEquiv_val (size : Placement → Nat) (line : Σ k : Fin ps.size, Fin (size (ps.get k))) :
    (finSigmaFinEquiv line).val = ((ps.toList.map size).take line.1).sum + line.2 := by
  have htake : (ps.toList.map size).take line.1 = List.ofFn fun i => size (ps.get (Fin.castLE line.1.isLt.le i)) := by
    refine List.ext_getElem (by simp) fun i hi hi' => ?_
    simp
  rw [finSigmaFinEquiv_apply, htake, List.sum_ofFn]

theorem sum_sizes (size : Placement → Nat) : ∑ k : Fin ps.size, size (ps.get k) = (ps.toList.map size).sum := by
  have hall : ps.toList.map size = List.ofFn fun k : Fin ps.size => size (ps.get k) := by
    refine List.ext_getElem (by simp) fun i hi hi' => ?_
    simp
  rw [hall, List.sum_ofFn]

/-! ## The layout of the problem written out -/

namespace Placements

abbrev surrogates (ps : Placements) : List Nat := ps.toList.map (·.surrogate)

/-- The outer rows that stay come first, in order; the components follow, each behind the one before it. -/
def layout (ps : Placements) (n : Nat) : Layout where
  componentRows := (starts (ps.kept n).length (ps.toList.map (·.component.equations))).toArray
  componentColumns := (starts n (ps.toList.map (·.component.privates))).toArray
  privates := (ps.toList.map (·.component.privates)).toArray
  outerRows := Array.ofFn fun i : Fin n => if i.val ∈ ps.surrogates then none else some (ps.kept i).length

theorem kept_succ (ps : Placements) (i : Nat) :
    ps.kept (i + 1) = ps.kept i ++ if i ∈ ps.surrogates then [] else [i] := by
  unfold kept
  rw [List.range_succ, List.filter_append]
  by_cases hi : i ∈ ps.surrogates
  · rw [if_pos hi, List.filter_cons_of_neg (by simpa only [decide_eq_true_eq, not_not] using hi), List.filter_nil]
  · rw [if_neg hi, List.filter_cons_of_pos (by simpa only [decide_eq_true_eq] using hi), List.filter_nil]

end Placements

namespace Expansion

open Placements

variable {x x' : Expansion dimension} {m : Nat}

structure Copied (x : Expansion dimension) (ps : Placements) (n m : Nat) : Prop where
  nextRow : x.nextRow = (ps.kept m).length
  nextColumn : x.nextColumn = n
  components : x.layout.componentRows = #[] ∧ x.layout.componentColumns = #[] ∧ x.layout.privates = #[]
  size : x.layout.outerRows.size = n
  outerRows : ∀ i < n, x.layout.outerRows[i]? =
    some (if i < m ∧ i ∉ ps.surrogates then some (ps.kept i).length else none)

theorem start_copied (ps : Placements) : (start dimension n).Copied ps n 0 where
  nextRow := rfl
  nextColumn := rfl
  components := ⟨rfl, rfl, rfl⟩
  size := by simp [start]
  outerRows i hi := by simp [start, hi]

theorem Copied.copyRow (h : x.Copied ps n m) (hx : copyRow outer s ps.surrogates x m = .ok x') :
    x'.Copied ps n (m + 1) := by
  by_cases hm : m ∈ ps.surrogates
  · unfold Expansion.copyRow at hx
    rw [if_pos hm] at hx
    cases hx
    refine ⟨?_, h.nextColumn, h.components, h.size, fun i hi => ?_⟩
    · rw [h.nextRow, kept_succ, if_pos hm, List.append_nil]
    · have hbefore : i < m + 1 ∧ i ∉ ps.surrogates ↔ i < m ∧ i ∉ ps.surrogates := by
        refine and_congr_left fun hstays => ?_
        have hne : i ≠ m := fun heq => hstays (heq ▸ hm)
        omega
      rw [h.outerRows i hi]
      simp only [hbefore]
  · obtain ⟨y, z, j, -, hframe, -, hz, hsize, rfl⟩ := copyRow_cases hm hx
    refine ⟨?_, ?_, h.components, ?_, fun i hi => ?_⟩
    · simp [kept_succ, hm, h.nextRow]
    · rw [pair_frame hz, hframe]
      exact h.nextColumn
    · simpa using h.size
    · dsimp only
      rw [Array.getElem?_set]
      by_cases hi' : m = i
      · subst hi'
        simp [hm, h.nextRow]
      · have hbefore : i < m + 1 ↔ i < m := by omega
        rw [if_neg hi', h.outerRows i hi]
        simp only [hbefore]

theorem copyRows_copied (hx : (List.range m).foldlM (copyRow outer s ps.surrogates) (start dimension n) = .ok x) :
    x.Copied ps n m := by
  induction m generalizing x with
  | zero =>
    cases hx
    exact start_copied ps
  | succ m ih =>
    rw [List.range_succ, List.foldlM_append] at hx
    obtain ⟨y, hy, hx⟩ := bind_eq_ok_iff.mp hx
    obtain ⟨x', hx', hx⟩ := bind_eq_ok_iff.mp hx
    cases hx
    exact (ih hy).copyRow hx'

theorem addComponents_layout {l : List Placement}
    (hx : (l.zipIdx k).foldlM (fun x (p, k) => x.addComponent s p k) x = .ok x') :
    x'.layout = ⟨x.layout.componentRows ++ (starts x.nextRow (l.map (·.component.equations))).toArray,
      x.layout.componentColumns ++ (starts x.nextColumn (l.map (·.component.privates))).toArray,
      x.layout.privates ++ (l.map (·.component.privates)).toArray, x.layout.outerRows⟩ := by
  induction l generalizing x k with
  | nil =>
    cases hx
    simp [starts]
  | cons p l ih =>
    rw [List.zipIdx_cons, List.foldlM_cons] at hx
    obtain ⟨y, hy, hx⟩ := bind_eq_ok_iff.mp hx
    obtain ⟨_, _, _, _, -, -, -, -, -, rfl⟩ := addComponent_cases hy
    rw [ih hx]
    simp [starts]

end Expansion

theorem Placements.expand_layout {y : Expanded} (hy : ps.expand outer s = .ok y) :
    y.dimension = n + privates ps.toList ∧ y.layout = ps.layout n := by
  obtain ⟨-, -, -, x, z, hx, hz, hy⟩ := expand_cases hy
  have hcopied := Expansion.copyRows_copied hx
  have hlayout := Expansion.addComponents_layout hz
  obtain ⟨_, _, _, -, -, -, rfl⟩ := Expansion.finish_cases hy
  refine ⟨rfl, ?_⟩
  have houter : x.layout.outerRows = (ps.layout n).outerRows := by
    refine Array.ext_getElem? fun i => ?_
    by_cases hi : i < n
    · rw [hcopied.outerRows i hi]
      simp only [layout, Array.getElem?_ofFn, hi, dite_true]
      congr 1
      by_cases hs : i ∈ ps.surrogates
      · rw [if_pos hs, if_neg (by simp [hs])]
      · rw [if_neg hs, if_pos ⟨trivial, hs⟩]
    · rw [Array.getElem?_eq_none (by rw [hcopied.size]; omega), Array.getElem?_eq_none (by simp [layout]; omega)]
  obtain ⟨hrows, hcolumns, hprivates⟩ := hcopied.components
  dsimp only
  rw [hlayout, hcopied.nextRow, hcopied.nextColumn, hrows, hcolumns, hprivates, houter]
  simp [layout]

/-! ## Queries -/

namespace Layout

variable {l : Layout} {p : Nat}

theorem extractedEquation_eq (hp : l.privates[k]? = some p) (hrow : l.componentRows[k]? = some first)
    (hcounted : first + p + 1 < 18446744073709551616) (e : Nat) : l.extractedEquation e k =
      if e < p + 1 then .ok (first + e) else refuse (.invalidIndex .componentEquation e (p + 1)) := by
  have hk : k < l.components := (Array.getElem?_eq_some_iff.mp hrow).1
  unfold extractedEquation
  rw [checkIndex_of_lt hk, ok_bind, lookAt_eq_ok_iff.mpr hp, ok_bind, fitIndex_of_lt (by omega), ok_bind]
  by_cases he : e < p + 1
  · rw [if_pos he, checkIndex_of_lt he, ok_bind, lookAt_eq_ok_iff.mpr hrow, ok_bind, fitIndex_of_lt (by omega)]
  · rw [if_neg he, checkIndex_of_le (Nat.not_lt.mp he), refuse_bind]

theorem extractedVariable_eq (hp : l.privates[k]? = some p) (hk : k < l.components)
    (hcolumn : l.componentColumns[k]? = some first) (hcounted : first + p < 18446744073709551616) (x : Nat) :
    l.extractedVariable x k =
      if x < p then .ok (first + x) else refuse (.invalidIndex .privateVariable x p) := by
  unfold extractedVariable
  rw [checkIndex_of_lt hk, ok_bind, lookAt_eq_ok_iff.mpr hp, ok_bind]
  by_cases hx : x < p
  · rw [if_pos hx, checkIndex_of_lt hx, ok_bind, lookAt_eq_ok_iff.mpr hcolumn, ok_bind, fitIndex_of_lt (by omega)]
  · rw [if_neg hx, checkIndex_of_le (Nat.not_lt.mp hx), refuse_bind]

end Layout

abbrev Placements.Equations (ps : Placements) : Type := Σ k : Fin ps.size, Fin (ps.get k).component.equations

abbrev Placements.Privates (ps : Placements) : Type := Σ k : Fin ps.size, Fin (ps.get k).component.privates

structure Layout.Divides (l : Layout) (ps : Placements)
    (row : Survivor n ps.surrogates ⊕ ps.Equations ≃ Fin dimension)
    (column : Fin n ⊕ ps.Privates ≃ Fin dimension) : Prop where
  outerRow : ∀ i, l.outerEquation i.1 = .ok (some (row (.inl i)))
  surrogate : ∀ i < n, i ∈ ps.surrogates → l.outerEquation i = .ok none
  equation : ∀ (k : Fin ps.size) (e : Fin (ps.get k).component.equations),
    l.extractedEquation e k = .ok (row (.inr ⟨k, e⟩))
  unknown : ∀ (k : Fin ps.size) (x : Fin (ps.get k).component.privates),
    l.extractedVariable x k = .ok (column (.inr ⟨k, x⟩))
  outerColumn : ∀ j, (column (.inl j)).val = j
  increasing : ∀ i i', i.1 < i'.1 → row (.inl i) < row (.inl i')
  behind : ∀ i e, row (.inl i) < row (.inr e)
  noOuterRow : ∀ i, n ≤ i → l.outerEquation i = refuse (.invalidIndex .equation i n)
  noComponent : ∀ k e, ps.size ≤ k → l.extractedEquation e k = refuse (.invalidIndex .componentInstance k ps.size) ∧
    l.extractedVariable e k = refuse (.invalidIndex .componentInstance k ps.size)
  noEquation : ∀ (k : Fin ps.size) e, (ps.get k).component.equations ≤ e →
    l.extractedEquation e k = refuse (.invalidIndex .componentEquation e (ps.get k).component.equations)
  noUnknown : ∀ (k : Fin ps.size) x, (ps.get k).component.privates ≤ x →
    l.extractedVariable x k = refuse (.invalidIndex .privateVariable x (ps.get k).component.privates)

namespace Placements

def firstRow (ps : Placements) (n k : Nat) : Nat :=
  (ps.kept n).length + ((ps.toList.map (·.component.equations)).take k).sum

def firstColumn (ps : Placements) (n k : Nat) : Nat := n + ((ps.toList.map (·.component.privates)).take k).sum

theorem kept_length (ps : Placements) (i : Nat) : (ps.kept i).length = Nat.count (· ∉ ps.surrogates) i := by
  rw [Nat.count, kept, List.countP_eq_length_filter]

/-- Each surrogate row makes room for the equation that a component has more than private variables. -/
theorem lines_eq (hrange : ∀ p ∈ ps.toList, p.surrogate < n) (hdistinct : ps.surrogates.Nodup) :
    (ps.kept n).length + ∑ k : Fin ps.size, (ps.get k).component.equations = n + privates ps.toList := by
  have hkept := (kept_append_perm hdistinct hrange).length_eq
  have hequations : (ps.toList.map (·.component.equations)).sum = privates ps.toList + ps.size := by
    simp [Component.equations, privates, List.sum_map_add]
  rw [List.length_append, List.length_range] at hkept
  rw [sum_sizes (·.component.equations), hequations]
  simp at hkept
  omega

theorem exists_numbering (hrange : ∀ p ∈ ps.toList, p.surrogate < n) (hdistinct : ps.surrogates.Nodup) :
    ∃ (row : Survivor n ps.surrogates ⊕ ps.Equations ≃ Fin (n + privates ps.toList))
      (column : Fin n ⊕ ps.Privates ≃ Fin (n + privates ps.toList)),
      (∀ i, (row (.inl i)).val = (ps.kept i.1).length) ∧ (∀ k e, (row (.inr ⟨k, e⟩)).val = ps.firstRow n k + e) ∧
      (∀ j, (column (.inl j)).val = j) ∧ ∀ k x, (column (.inr ⟨k, x⟩)).val = ps.firstColumn n k + x := by
  let renumbering : Renumbering := ⟨n, ps.surrogates, []⟩
  have hplace : ∀ i, renumbering.place i = (ps.kept i).length := fun i => (ps.kept_length i).symm
  obtain ⟨place, hplaces⟩ := renumbering.exists_places rfl rfl ((hplace n).symm ▸ (lines_eq hrange hdistinct).symm)
  have hcolumns : ∑ k : Fin ps.size, (ps.get k).component.privates = privates ps.toList :=
    sum_sizes (·.component.privates)
  refine ⟨(Equiv.sumCongr (.refl _) finSigmaFinEquiv).trans place,
    (Equiv.sumCongr (.refl _) (finSigmaFinEquiv.trans (finCongr hcolumns))).trans finSumFinEquiv,
    fun i => (hplaces.kept i).trans (hplace _), fun k e => ?_, fun j => rfl, fun k x => ?_⟩
  · refine (hplaces.fresh _).trans ?_
    rw [hplace, finSigmaFinEquiv_val (·.component.equations), ← Nat.add_assoc]
    rfl
  · have hval := finSigmaFinEquiv_val (·.component.privates) (⟨k, x⟩ : ps.Privates)
    simp [firstColumn, hval, Nat.add_assoc]

theorem layout_outerEquation {i : Nat} (hi : i < n) :
    (ps.layout n).outerEquation i = .ok (if i ∈ ps.surrogates then none else some (ps.kept i).length) := by
  unfold Layout.outerEquation
  rw [checkIndex_of_lt (by simpa [layout] using hi), ok_bind, lookAt_eq_ok_iff]
  simp [layout, hi]

theorem take_sum_le (size : Placement → Nat) (k : Fin ps.size) :
    ((ps.toList.map size).take k).sum + size (ps.get k) ≤ (ps.toList.map size).sum := by
  have hk : k < (ps.toList.map size).length := by simp
  have hsplit := List.sum_take_add_sum_drop (ps.toList.map size) (k + 1)
  rw [List.sum_take_succ _ _ hk, List.getElem_map, Array.getElem_toList] at hsplit
  exact Nat.le.intro hsplit

theorem layout_extractedEquation (hrange : ∀ p ∈ ps.toList, p.surrogate < n) (hdistinct : ps.surrogates.Nodup)
    (hcounted : n + privates ps.toList < 18446744073709551616) (k : Fin ps.size) (e : Nat) :
    (ps.layout n).extractedEquation e k =
      if e < (ps.get k).component.equations then .ok (ps.firstRow n k + e)
      else refuse (.invalidIndex .componentEquation e (ps.get k).component.equations) := by
  have hlines := lines_eq hrange hdistinct
  rw [sum_sizes (·.component.equations)] at hlines
  have hle := take_sum_le (·.component.equations) k
  refine Layout.extractedEquation_eq ?_ ?_ ?_ e
  · simp [layout]
  · simp only [layout, List.getElem?_toArray]
    exact starts_getElem? (by simp)
  · change ps.firstRow n k + (ps.get k).component.equations < _
    unfold firstRow
    omega

theorem layout_extractedVariable (hcounted : n + privates ps.toList < 18446744073709551616) (k : Fin ps.size)
    (x : Nat) : (ps.layout n).extractedVariable x k =
      if x < (ps.get k).component.privates then .ok (ps.firstColumn n k + x)
      else refuse (.invalidIndex .privateVariable x (ps.get k).component.privates) := by
  have hle := take_sum_le (·.component.privates) k
  refine Layout.extractedVariable_eq ?_ ?_ ?_ ?_ x
  · simp [layout]
  · simp [layout, Layout.components]
  · simp only [layout, List.getElem?_toArray]
    exact starts_getElem? (by simp)
  · unfold privates at hcounted
    unfold firstColumn
    omega

theorem layout_noComponent (hk : ps.size ≤ k) (e : Nat) :
    (ps.layout n).extractedEquation e k = refuse (.invalidIndex .componentInstance k ps.size) ∧
      (ps.layout n).extractedVariable e k = refuse (.invalidIndex .componentInstance k ps.size) := by
  have hcomponents : (ps.layout n).components = ps.size := by simp [layout, Layout.components]
  unfold Layout.extractedEquation Layout.extractedVariable
  rw [hcomponents, checkIndex_of_le hk]
  exact ⟨rfl, rfl⟩

/-- **The layout divides the lines of the problem written out** into outer ones and those of each component. -/
theorem expand_divides {y : Expanded} (hy : ps.expand outer s = .ok y) :
    y.dimension = n + privates ps.toList ∧ ∃ (row : Survivor n ps.surrogates ⊕ ps.Equations ≃ Fin y.dimension)
      (column : Fin n ⊕ ps.Privates ≃ Fin y.dimension), y.layout.Divides ps row column := by
  obtain ⟨hrange, hdistinct, hcounted, -⟩ := expand_cases hy
  obtain ⟨hdimension, hlayout⟩ := expand_layout hy
  obtain ⟨row, column, hkept, hequation, houter, hprivate⟩ := exists_numbering hrange hdistinct
  rw [hdimension, hlayout]
  refine ⟨rfl, row, column, ?_⟩
  constructor
  case outerRow =>
    intro i
    rw [layout_outerEquation i.1.isLt, if_neg i.2, hkept]
  case surrogate =>
    intro i hi hs
    rw [layout_outerEquation hi, if_pos hs]
  case equation =>
    intro k e
    rw [layout_extractedEquation hrange hdistinct hcounted k, if_pos e.isLt, hequation]
  case unknown =>
    intro k x
    rw [layout_extractedVariable hcounted k, if_pos x.isLt, hprivate]
  case outerColumn => exact houter
  case increasing =>
    intro i i' hlt
    rw [Fin.lt_def, hkept, hkept, kept_length, kept_length]
    exact Nat.count_strict_mono i.2 hlt
  case behind =>
    rintro i ⟨k, e⟩
    have hlt : (ps.kept i.1).length < (ps.kept n).length := by
      rw [kept_length, kept_length]
      exact Nat.count_strict_mono i.2 i.1.isLt
    rw [Fin.lt_def, hkept, hequation]
    unfold firstRow
    omega
  case noOuterRow =>
    intro i hi
    have hsize : (ps.layout n).outerRows.size = n := by simp [layout]
    unfold Layout.outerEquation
    rw [hsize, checkIndex_of_le hi, refuse_bind]
  case noComponent => exact fun k e hk => layout_noComponent hk e
  case noEquation =>
    intro k e he
    rw [layout_extractedEquation hrange hdistinct hcounted k, if_neg (Nat.not_lt.mpr he)]
  case noUnknown =>
    intro k x hx
    rw [layout_extractedVariable hcounted k, if_neg (Nat.not_lt.mpr hx)]

/-- Each integrator is solved for its second public variable. -/
def chainMatching : Matching := ⟨-2, #[0, 1, 2], #[0, 1, 2], #[], #[]⟩

theorem exists_chain_expanded : ∃ y, chain.expand chainOuter chainMatching = .ok y := by
  rw [← isOk_iff]
  decide +kernel

theorem expand_divides_chain : ∃ y, chain.expand chainOuter chainMatching = .ok y ∧ y.dimension = 5 ∧
    ∃ (row : Survivor 3 chain.surrogates ⊕ chain.Equations ≃ Fin y.dimension)
      (column : Fin 3 ⊕ chain.Privates ≃ Fin y.dimension), y.layout.Divides chain row column := by
  obtain ⟨y, hy⟩ := exists_chain_expanded
  obtain ⟨hdimension, hdivides⟩ := expand_divides hy
  exact ⟨y, hy, hdimension, hdivides⟩

end Placements

end SigmaMethod
