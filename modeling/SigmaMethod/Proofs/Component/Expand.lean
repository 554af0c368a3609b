import Mathlib.Data.List.Perm.Subperm
import SigmaMethod.Proofs.Component.WrittenOut

/-!
# Writing components out

The rows of an expansion come one after the other, each with its column. `Reaches` says which rows and columns are there
so far; copying an outer row adds one of each, and adding a component adds those of its equations. When all rows have
their columns, the expansion is read off as a matrix with a transversal.
-/

namespace SigmaMethod

open Signature (Functional HasRows)

variable {α : Type} {n dimension first row k : Nat} {rows new : List CostRow} {columns : List Nat}

/-! ## Adding rows -/

theorem Signature.HasRows.adds {m t : Signature n} {es : List (Nat × Nat × Int)} (h : m.HasRows rows) (ht : m.Adds t es)
    (hes : ∀ r l c, (r, l, c) ∈ es ↔ rows.length ≤ r ∧ (new[r - rows.length]?.bind fun new => new l) = some c) :
    t.HasRows (rows ++ new) := by
  intro r l
  refine Option.ext fun c => ?_
  rw [ht, hes, h r l, List.getElem?_append]
  split
  · rename_i hr
    exact or_iff_left fun hnew => absurd hnew.1 (Nat.not_le.mpr hr)
  · rename_i hr
    have hr := Nat.not_lt.mp hr
    simp [hr]

namespace Expansion

variable {x x' : Expansion dimension}

theorem insert_writes (x : Expansion dimension) (i j : Nat) (c : Int) :
    Delivers (x.insert i j c) (fun x' => x' = { x with matrix := x'.matrix } ∧
      ∀ k l, x'.matrix.cost? k l = if k = i ∧ l = j then some c else x.matrix.cost? k l)
      (fun _ => ¬ (i < dimension ∧ j < dimension)) := by
  unfold Expansion.insert
  refine (Signature.insert_spec x.matrix i j c).bind fun t ht => ?_
  exact .pure ⟨rfl, ht⟩

theorem insert_spec {i j : Nat} {c : Int} (hi : i < dimension) (hj : j < dimension) :
    Yields (x.insert i j c) fun x' => x' = { x with matrix := x'.matrix } ∧
      ∀ k l, x'.matrix.cost? k l = if k = i ∧ l = j then some c else x.matrix.cost? k l :=
  (x.insert_writes i j c).mono (fun _ h => h) fun _ h => h ⟨hi, hj⟩

theorem addRows_spec {F : Refusal → Prop} (new : List CostRow) {l : List α}
    (entry : α → Nat × Nat × Int) {step : Expansion dimension → α → Outcome (Expansion dimension)}
    (h : x.matrix.HasRows rows)
    (hentry : ∀ r j c, (r, j, c) ∈ l.map entry ↔ rows.length ≤ r ∧
      (new[r - rows.length]?.bind fun new => new j) = some c)
    (hstep : ∀ x, ∀ a ∈ l, Delivers (step x a) (fun x' => x' = { x with matrix := x'.matrix } ∧
      ∀ k l, x'.matrix.cost? k l =
        if k = (entry a).1 ∧ l = (entry a).2.1 then some (entry a).2.2 else x.matrix.cost? k l) F) :
    Delivers (l.foldlM step x) (fun x' => x' = { x with matrix := x'.matrix } ∧ x'.matrix.HasRows (rows ++ new)) F := by
  have hall : Delivers (l.foldlM step x) (fun x' =>
      x' = { x with matrix := x'.matrix } ∧ x.matrix.Adds x'.matrix (l.map entry)) F := by
    refine Delivers.foldlM_done (I := fun done (y : Expansion dimension) => y = { x with matrix := y.matrix } ∧
      x.matrix.Adds y.matrix (done.map entry)) ⟨rfl, .refl _⟩ ?_
    rintro done a y hdone ⟨hframe, hadds⟩
    have hsub : ∀ e ∈ (done ++ [a]).map entry, e ∈ l.map entry := fun e he => List.map_subset _ hdone.subset he
    have hmem : entry a ∈ (done ++ [a]).map entry := List.mem_map_of_mem (by simp)
    refine (hstep y a (hdone.subset (by simp))).imp ?_
    rintro y' ⟨hframe', hput⟩
    refine ⟨by rw [hframe', hframe], ?_⟩
    rw [List.map_append]
    refine hadds.insert ?_ (fun c hc => ?_) hput
    · have hrow := ((hentry _ _ _).mp (hsub _ hmem)).1
      rw [h, List.getElem?_eq_none hrow]
      rfl
    · have hnew := ((hentry _ _ _).mp (hsub _ hmem)).2
      have hold := ((hentry _ _ _).mp (hsub _ (List.map_subset _ (List.subset_append_left done [a]) hc))).2
      rw [hnew] at hold
      exact (Option.some.inj hold).symm
  exact hall.imp fun x' ⟨hframe, hadds⟩ => ⟨hframe, h.adds hadds hentry⟩

/-! ## Adding pairs -/

structure Paired (x : Expansion dimension) (columns : List Nat) : Prop where
  columnOf_size : x.columnOf.size = dimension
  rowOf_size : x.rowOf.size = dimension
  columnOf : ∀ r j : Nat, x.columnOf[r]? = some (some j) ↔ columns[r]? = some j
  rowOf : ∀ j r : Nat, x.rowOf[j]? = some (some r) ↔ columns[r]? = some j

theorem Paired.congr (h : x.Paired columns) (hcolumnOf : x'.columnOf = x.columnOf) (hrowOf : x'.rowOf = x.rowOf) :
    x'.Paired columns :=
  ⟨hcolumnOf ▸ h.columnOf_size, hrowOf ▸ h.rowOf_size, hcolumnOf ▸ h.columnOf, hrowOf ▸ h.rowOf⟩

theorem nodup_of_subperm {l : List Nat} (h : l.Subperm (List.range dimension)) : l.Nodup := by
  obtain ⟨l', hperm, hsub⟩ := h
  exact hperm.nodup_iff.mp (hsub.nodup List.nodup_range)

theorem pair_spec {j : Nat} (h : x.Paired columns) (hcolumns : (columns ++ [j]).Subperm (List.range dimension)) :
    Yields (x.pair columns.length j) fun x' =>
      x' = { x with columnOf := x'.columnOf, rowOf := x'.rowOf } ∧ x'.Paired (columns ++ [j]) := by
  have hrow : columns.length < dimension := by
    have := hcolumns.length_le
    simp at this
    omega
  have hj : j < dimension := List.mem_range.mp (hcolumns.subset (by simp))
  have hnew : j ∉ columns := fun hmem =>
    (List.nodup_append.mp (nodup_of_subperm hcolumns)).2.2 j hmem j (by simp) rfl
  have hlast : ∀ r : Nat, (columns ++ [j])[r]? = if r = columns.length then some j else columns[r]? := by
    intro r
    rw [List.getElem?_append]
    split
    · rw [if_neg (by omega)]
    · split
      · simp [*]
      · rw [List.getElem?_eq_none (by simp; omega), List.getElem?_eq_none (by omega)]
  unfold Expansion.pair
  refine .bind (.writeAt (P := (· = _)) (by rw [h.columnOf_size]; exact hrow) rfl) fun columnOf hcolumnOf => ?_
  refine .bind (.writeAt (P := (· = _)) (by rw [h.rowOf_size]; exact hj) rfl) fun rowOf hrowOf => .pure ⟨rfl, ?_⟩
  subst hcolumnOf hrowOf
  refine ⟨by simp [h.columnOf_size], by simp [h.rowOf_size], fun r l => ?_, fun l r => ?_⟩
  · rw [hlast, Array.getElem?_set]
    by_cases hr : r = columns.length
    · simp [hr]
    · rw [if_neg (Ne.symm hr), if_neg hr]
      exact h.columnOf r l
  · rw [hlast, Array.getElem?_set]
    by_cases hl : l = j
    · subst hl
      by_cases hr : r = columns.length
      · simp [hr]
      · have hold : columns[r]? ≠ some l := fun hget => hnew (List.mem_of_getElem? hget)
        simp [hr, hold, Ne.symm hr]
    · rw [if_neg (Ne.symm hl), h.rowOf]
      by_cases hr : r = columns.length
      · simp [hr, Ne.symm hl]
      · rw [if_neg hr]

theorem pairEach_spec {internal : List Nat} {place : Nat → Outcome Nat} {position : Nat → Nat}
    (hplace : ∀ j, Yields (place j) (· = position j)) (hk : row + k = columns.length) (h : x.Paired columns)
    (hcolumns : (columns ++ internal.map position).Subperm (List.range dimension)) :
    Yields ((internal.zipIdx k).foldlM (fun x (j, i) => do x.pair (row + i) (← place j)) x) fun x' =>
      x' = { x with columnOf := x'.columnOf, rowOf := x'.rowOf } ∧ x'.Paired (columns ++ internal.map position) := by
  induction internal generalizing k columns x with
  | nil =>
    rw [List.map_nil, List.append_nil]
    exact .pure ⟨rfl, h⟩
  | cons j internal ih =>
    have hsplit : columns ++ (j :: internal).map position = columns ++ [position j] ++ internal.map position := by simp
    rw [hsplit] at hcolumns ⊢
    rw [List.zipIdx_cons, List.foldlM_cons]
    have hstep : Yields (do x.pair (row + k) (← place j)) fun x' =>
        x' = { x with columnOf := x'.columnOf, rowOf := x'.rowOf } ∧ x'.Paired (columns ++ [position j]) := by
      refine (hplace j).bind fun l hl => ?_
      subst hl
      rw [hk]
      exact pair_spec h ((List.sublist_append_left _ _).subperm.trans hcolumns)
    refine hstep.bind fun y ⟨hframe, hy⟩ => ?_
    refine (ih (by rw [List.length_append, List.length_singleton]; omega) hy hcolumns).imp fun y' ⟨hframe', hy'⟩ =>
      ⟨?_, hy'⟩
    rw [hframe', hframe]

/-! ## Adding outer rows and components -/

variable {outer : Signature n} {s : Matching} {p : Placement} {surrogates : List Nat}

structure Reaches (x : Expansion dimension) (n : Nat) (rows : List CostRow) (columns : List Nat) (first : Nat) :
    Prop where
  matrix : x.matrix.HasRows rows
  paired : x.Paired columns
  length : columns.length = rows.length
  nextRow : x.nextRow = rows.length
  nextColumn : x.nextColumn = first
  outerRows : x.layout.outerRows.size = n

theorem start_reaches : (start dimension n).Reaches n [] [] n where
  matrix r l := by simp [start]
  paired := ⟨by simp [start], by simp [start], by simp [start, Array.getElem?_replicate],
    by simp [start, Array.getElem?_replicate]⟩
  length := rfl
  nextRow := rfl
  nextColumn := rfl
  outerRows := by simp [start]

theorem mem_copied_entries_iff {i k r j : Nat} {c : Int} :
    (r, j, c) ∈ ((outer.row i).map fun e => (k, e.1, e.2)) ↔
      k ≤ r ∧ ([outer.cost? i][r - k]?.bind fun new => new j) = some c := by
  rw [List.mem_map]
  constructor
  · rintro ⟨e, he, heq⟩
    cases heq
    rw [Nat.sub_self]
    exact ⟨Nat.le_refl _, Signature.mem_row_iff_cost?.mp he⟩
  · rintro ⟨hr, hc⟩
    rcases Nat.eq_or_lt_of_le hr with rfl | hr
    · rw [Nat.sub_self] at hc
      exact ⟨(j, c), Signature.mem_row_iff_cost?.mpr hc, rfl⟩
    · rw [List.getElem?_eq_none (by simp; omega)] at hc
      cases hc

theorem copyRow_spec {exit : Nat → Nat} {i : Nat} (h : x.Reaches n rows columns first) (hn : n ≤ dimension)
    (hi : i < n) (hnot : i ∉ surrogates) (hexit : s.columnOf[i]? = some (exit i))
    (hcolumns : (columns ++ [exit i]).Subperm (List.range dimension)) :
    Yields (copyRow outer s surrogates x i) fun x' =>
      x'.Reaches n (rows ++ [outer.cost? i]) (columns ++ [exit i]) first := by
  have hrow : rows.length < dimension := by
    have := hcolumns.length_le
    have := h.length
    simp at *
    omega
  unfold copyRow
  rw [if_neg hnot]
  refine .bind (addRows_spec [outer.cost? i] (fun e => (x.nextRow, e.1, e.2)) h.matrix ?_ ?_) fun y ⟨hy, hrows⟩ => ?_
  · intro r j c
    rw [h.nextRow]
    exact mem_copied_entries_iff
  · intro y e he
    obtain ⟨-, hj, -⟩ := Signature.cost?_eq_some_iff.mp (Signature.mem_row_iff_cost?.mp he)
    exact insert_spec (by rw [h.nextRow]; exact hrow) (by omega)
  have hpaired : y.Paired columns := h.paired.congr (by rw [hy]) (by rw [hy])
  obtain ⟨hsize, hget⟩ := Array.getElem?_eq_some_iff.mp hexit
  refine .bind (.lookAt (P := (· = exit i)) hsize hget) fun j hj => ?_
  subst hj
  rw [h.nextRow, ← h.length]
  refine (pair_spec hpaired hcolumns).bind fun z ⟨hz, hpaired'⟩ => ?_
  have houter : i < z.layout.outerRows.size := by
    rw [hz, hy]
    exact h.outerRows ▸ hi
  refine .bind (.writeAt (P := (·.size = z.layout.outerRows.size)) houter (by simp)) fun outerRows hsize => .pure ?_
  refine ⟨?_, hpaired'.congr rfl rfl, ?_, ?_, ?_, ?_⟩
  · rw [hz]
    exact hrows
  · simp [h.length]
  · simp [h.length]
  · rw [hz, hy]
    exact h.nextColumn
  · rw [hsize, hz, hy]
    exact h.outerRows

theorem copyRows_spec (exit : Nat → Nat) {is : List Nat} (h : x.Reaches n rows columns first) (hn : n ≤ dimension)
    (hexit : ∀ i ∈ is, i < n ∧ s.columnOf[i]? = some (exit i))
    (hcolumns : (columns ++ (is.filter fun i => i ∉ surrogates).map exit).Subperm (List.range dimension)) :
    Yields (is.foldlM (copyRow outer s surrogates) x) fun x' =>
      x'.Reaches n (rows ++ (is.filter fun i => i ∉ surrogates).map outer.cost?)
        (columns ++ (is.filter fun i => i ∉ surrogates).map exit) first := by
  induction is generalizing x rows columns with
  | nil =>
    rw [List.filter_nil, List.map_nil, List.map_nil, List.append_nil, List.append_nil]
    exact .pure h
  | cons i is ih =>
    have his : ∀ k ∈ is, k < n ∧ s.columnOf[k]? = some (exit k) := fun k hk => hexit k (List.mem_cons_of_mem _ hk)
    rw [List.foldlM_cons]
    by_cases hi : i ∈ surrogates
    · rw [List.filter_cons_of_neg (by simp [hi])] at hcolumns ⊢
      unfold copyRow
      rw [if_pos hi]
      exact ih h his hcolumns
    · rw [List.filter_cons_of_pos (by simp [hi]), List.map_cons, List.append_cons] at hcolumns
      rw [List.filter_cons_of_pos (by simp [hi]), List.map_cons, List.append_cons, List.map_cons,
        List.append_cons columns]
      obtain ⟨hlt, hget⟩ := hexit i List.mem_cons_self
      have hnext := (List.sublist_append_left _ _).subperm.trans hcolumns
      exact (copyRow_spec h hn hlt hi hget hnext).bind fun y hy => ih hy his hcolumns

theorem columnAt_spec (p : Placement) (first j : Nat) : Yields (columnAt p first j) (· = p.wholeColumn first j) := by
  unfold columnAt Placement.wholeColumn
  split
  · exact .fitIndex rfl
  · exact .fitIndex rfl

theorem mem_component_entries_iff (hp : p.Fits n) (hfirst : n ≤ first) {r j : Nat} {c : Int} :
    (r, j, c) ∈ (p.component.entries.map fun e => (rows.length + e.1, p.wholeColumn first e.2.1, e.2.2)) ↔
      rows.length ≤ r ∧ ((p.rowsAt first)[r - rows.length]?.bind fun new => new j) = some c := by
  have hrow : ((p.rowsAt first)[r - rows.length]?.bind fun new => new j) = some c ↔
      r - rows.length < p.component.equations ∧ p.rowAt first (r - rows.length) j = some c := by
    unfold Placement.rowsAt
    by_cases hr : r - rows.length < p.component.equations <;> simp [hr]
  rw [hrow, List.mem_map]
  constructor
  · rintro ⟨⟨i, l, c⟩, he, heq⟩
    cases heq
    rw [Nat.add_sub_cancel_left]
    exact ⟨Nat.le_add_right _ _, (hp.1.inRange i l c he).1, (Placement.rowAt_eq_some_iff hp hfirst).mpr ⟨l, he, rfl⟩⟩
  · rintro ⟨hr, -, hc⟩
    obtain ⟨l, he, rfl⟩ := (Placement.rowAt_eq_some_iff hp hfirst).mp hc
    exact ⟨(r - rows.length, l, c), he, Prod.ext (Nat.add_sub_cancel' hr) rfl⟩

theorem exitOf_spec {j : Nat} (hexit : s.columnOf[p.surrogate]? = some j) (hj : p.firstPublic ≤ j)
    (hj' : j < p.firstPublic + p.component.publics) : Yields (exitOf s k p) (· = j - p.firstPublic) := by
  unfold exitOf
  obtain ⟨hsize, hget⟩ := Array.getElem?_eq_some_iff.mp hexit
  refine .bind (.lookAt (P := (· = j)) hsize hget) fun l hl => ?_
  subst hl
  rw [if_pos (by simp; omega)]
  exact .pure rfl

theorem matching_spec {c : Component} {e : Nat} {matching : Option (List Nat)} (he : e < c.publics)
    (h : c.matchings[e]? = some matching) : Yields (c.matching e) (· = matching) := by
  unfold Component.matching
  refine .bind (.checkIndex (P := fun _ => True) (fun _ => trivial) fun hno => hno he) fun _ _ => ?_
  obtain ⟨hsize, hget⟩ := Array.getElem?_eq_some_iff.mp h
  exact .lookAt hsize hget

theorem addComponent_spec {j : Nat} {c : Int} (h : x.Reaches n rows columns first) (hp : p.Fits n) (hfirst : n ≤ first)
    (hlast : first + p.component.privates ≤ dimension) (hexit : s.columnOf[p.surrogate]? = some j)
    (hc : p.surrogateRow j = some c) (hcolumns : (columns ++ p.columns first j).Subperm (List.range dimension)) :
    Yields (x.addComponent s p k) fun x' =>
      x'.Reaches n (rows ++ p.rowsAt first) (columns ++ p.columns first j) (first + p.component.privates) := by
  obtain ⟨hj, hj'⟩ := Placement.lt_of_surrogateRow hc
  obtain ⟨hsolution, -, picks, hpicks, hpicksColumns, -⟩ := Placement.exists_solution hp hfirst hc
  have hlength : (p.columns first j).length = (p.rowsAt first).length := by
    rw [← hpicksColumns, List.length_map, ← hpicks.length_eq]
  have hequations : (p.rowsAt first).length = p.component.equations := by simp [Placement.rowsAt]
  -- the rows have different columns, so there is room for them
  have hrows : rows.length + p.component.equations ≤ dimension := by
    have := hcolumns.length_le
    rw [List.length_append, List.length_range, hlength, hequations, h.length] at this
    exact this
  have hdimension := hp.2
  unfold addComponent
  refine (exitOf_spec hexit hj hj').bind fun e he => ?_
  subst he
  refine (matching_spec (by omega) hsolution).bind fun internal hinternal => ?_
  subst hinternal
  dsimp only
  rw [h.nextRow, h.nextColumn]
  refine .bind (addRows_spec (p.rowsAt first) _ h.matrix (fun r l c => mem_component_entries_iff hp hfirst) ?_)
    fun y hy => ?_
  · intro y e he
    have hlt := hp.1.inRange e.1 e.2.1 e.2.2 he
    refine (columnAt_spec p first e.2.1).bind fun l hl => ?_
    subst hl
    refine insert_spec (by omega) ?_
    unfold Placement.wholeColumn
    split <;> omega
  obtain ⟨hy, hmatrix⟩ := hy
  have hpaired : y.Paired columns := h.paired.congr (by rw [hy]) (by rw [hy])
  refine (pairEach_spec (columnAt_spec p first) (by rw [h.length]; rfl) hpaired hcolumns).bind fun z hz => .pure ?_
  obtain ⟨hz, hpaired'⟩ := hz
  refine ⟨?_, hpaired'.congr rfl rfl, ?_, ?_, rfl, ?_⟩
  · rw [hz]
    exact hmatrix
  · rw [List.length_append, List.length_append, h.length, hlength]
  · rw [List.length_append, hequations]
  · rw [hz, hy]
    exact h.outerRows

theorem addComponents_spec (exit : Nat → Nat) {l : List Placement} (h : x.Reaches n rows columns first)
    (hfits : ∀ p ∈ l, p.Fits n) (hfirst : n ≤ first)
    (hlast : first + Placements.privates l ≤ dimension)
    (hexit : ∀ p ∈ l, s.columnOf[p.surrogate]? = some (exit p.surrogate) ∧
      ∃ c, p.surrogateRow (exit p.surrogate) = some c)
    (hcolumns : (columns ++ Placements.componentColumns exit l first).Subperm (List.range dimension)) :
    Yields ((l.zipIdx k).foldlM (fun x (p, k) => x.addComponent s p k) x) fun x' =>
      x'.Reaches n (rows ++ Placements.componentRows l first) (columns ++ Placements.componentColumns exit l first)
        (first + Placements.privates l) := by
  induction l generalizing x rows columns first k with
  | nil =>
    have hnone : x.Reaches n (rows ++ []) (columns ++ []) (first + 0) := by
      rwa [List.append_nil, List.append_nil, Nat.add_zero]
    exact .pure hnone
  | cons p l ih =>
    obtain ⟨hget, c, hc⟩ := hexit p List.mem_cons_self
    rw [Placements.privates_cons, ← Nat.add_assoc] at hlast ⊢
    rw [Placements.componentColumns, ← List.append_assoc] at hcolumns ⊢
    rw [Placements.componentRows, ← List.append_assoc, List.zipIdx_cons, List.foldlM_cons]
    have hnext := (List.sublist_append_left _ _).subperm.trans hcolumns
    refine (addComponent_spec h (hfits p List.mem_cons_self) hfirst (by omega) hget hc hnext).bind fun y hy => ?_
    exact ih hy (fun q hq => hfits q (List.mem_cons_of_mem _ hq)) (by omega) hlast
      (fun q hq => hexit q (List.mem_cons_of_mem _ hq)) hcolumns

/-! ## Reading the expansion off -/

theorem allPartners_eq_ok_iff {fault : CompressionFault} {xs : Array (Option Nat)} {l : List Nat} :
    allPartners fault xs = .ok l ↔ xs.toList = l.map some := by
  unfold allPartners
  generalize xs.toList = xs
  induction xs generalizing l with
  | nil => cases l <;> simp [Pure.pure, Except.pure]
  | cons x xs ih =>
    rw [List.mapM_cons, bind_eq_ok_iff]
    cases x with
    | none => cases l <;> simp
    | some j => cases l <;> simp [bind_eq_ok_iff, ih, Pure.pure, Except.pure, and_comm]

theorem total_spec {m : Signature dimension} {picks : List (Nat × Int)} {total : Int}
    (h : ∀ i pick, picks[i]? = some pick → m.cost? (k + i) pick.1 = some pick.2) :
    Yields (((picks.map Prod.fst).zipIdx k).foldlM (fun total (j, i) => do
      match m.cost? i j with
      | some y => fit (total + y)
      | none => refuse (.compression (.absentEntry i j))) total) (· = total + (picks.map Prod.snd).sum) := by
  induction picks generalizing k total with
  | nil => exact .pure (Int.add_zero total).symm
  | cons pick picks ih =>
    have hpick := h 0 pick rfl
    rw [List.map_cons, List.zipIdx_cons, List.foldlM_cons, List.map_cons, List.sum_cons, ← Int.add_assoc]
    rw [Nat.add_zero] at hpick
    dsimp only
    rw [hpick]
    refine .bind (.fit rfl) fun t ht => ?_
    subst ht
    refine ih fun i q hq => ?_
    have := h (i + 1) q hq
    rwa [← Nat.add_assoc, Nat.add_right_comm] at this

theorem finish_spec {picks : List (Nat × Int)} (h : x.Reaches n rows columns first) (hpicks : Picks rows picks)
    (hcolumns : picks.map Prod.fst = columns) (hperm : columns.Perm (List.range dimension)) :
    Yields x.finish fun y => ∃ σ : Equiv.Perm (Fin dimension), x.matrix.costRows = rows ∧ x.matrix.IsTransversal σ ∧
      x.matrix.costOf σ = (picks.map Prod.snd).sum ∧ y = ⟨dimension, x.matrix, Array.ofFn fun i => (σ i).val,
        Array.ofFn fun j => (σ.symm j).val, x.matrix.costOf σ, x.layout⟩ := by
  have hlength : rows.length = dimension := by
    rw [← h.length, hperm.length_eq, List.length_range]
  have hrows := h.matrix.costRows_eq hlength
  obtain ⟨σ, hσ, rfl⟩ := Signature.exists_transversal (hrows.symm ▸ hpicks) (hcolumns ▸ hperm)
  have hofFn : columns = List.ofFn fun i => (σ i).val := hcolumns.symm.trans Signature.picksOf_fst
  have hcolumnOf : x.columnOf.toList = columns.map some := by
    refine List.ext_getElem (by simp [h.paired.columnOf_size, h.length, hlength]) fun r hr hr' => ?_
    rw [List.length_map] at hr'
    have hget := (h.paired.columnOf r columns[r]).mpr (List.getElem?_eq_getElem hr')
    rw [List.getElem_map, Array.getElem_toList]
    exact (Array.getElem?_eq_some_iff.mp hget).2
  have hrowOf : x.rowOf.toList = (List.ofFn fun j => (σ.symm j).val).map some := by
    refine List.ext_getElem (by simp [h.paired.rowOf_size]) fun j hj hj' => ?_
    have hlt : j < dimension := by simpa using hj'
    have hget := (h.paired.rowOf j (σ.symm ⟨j, hlt⟩)).mpr (by simp [hofFn])
    rw [List.getElem_map, List.getElem_ofFn, Array.getElem_toList]
    exact (Array.getElem?_eq_some_iff.mp hget).2
  have hcosts : ∀ i pick, (x.matrix.picksOf σ)[i]? = some pick → x.matrix.cost? (0 + i) pick.1 = some pick.2 := by
    intro i pick hpick
    obtain ⟨hi, rfl⟩ := List.getElem?_eq_some_iff.mp hpick
    have := List.Forall₂.get hpicks (by rwa [hpicks.length_eq]) hi
    rw [Nat.zero_add, h.matrix, List.getElem?_eq_getElem (by rwa [hpicks.length_eq])]
    exact this
  unfold finish
  rw [allPartners_eq_ok_iff.mpr hcolumnOf, allPartners_eq_ok_iff.mpr hrowOf]
  refine .bind (.ok rfl) fun _ hcols => .bind (.ok rfl) fun _ hcols' => ?_
  subst hcols hcols'
  rw [← hcolumns]
  refine (total_spec hcosts).bind fun cost hcost => .pure ⟨σ, hrows, hσ, Signature.picksOf_cost.symm, ?_⟩
  rw [hcost, hcolumns, hofFn, Signature.picksOf_cost, Int.zero_add, List.toArray_ofFn, List.toArray_ofFn]

end Expansion

/-! ## Expanding -/

namespace Placements

open Expansion

variable {ps : Placements} {outer : Signature n} {s : Matching} {σ : Equiv.Perm (Fin n)}

theorem checkSurrogates_spec {seen : List Nat} {l : List Placement} (hrange : ∀ p ∈ l, p.surrogate < n)
    (hseen : ∀ p ∈ l, p.surrogate ∉ seen) (hdistinct : (l.map (·.surrogate)).Nodup) :
    Yields (checkSurrogates n seen l) fun _ => True := by
  induction l generalizing seen with
  | nil => exact .ok trivial
  | cons p l ih =>
    rw [List.map_cons, List.nodup_cons] at hdistinct
    unfold checkSurrogates
    refine .bind (.checkIndex (P := fun _ => True) (fun _ => trivial) fun hno => hno (hrange p List.mem_cons_self))
      fun _ _ => ?_
    rw [if_neg (hseen p List.mem_cons_self)]
    refine ih (fun q hq => hrange q (List.mem_cons_of_mem _ hq)) (fun q hq hmem => ?_) hdistinct.2
    rcases List.mem_cons.mp hmem with heq | hmem
    · exact hdistinct.1 (heq ▸ List.mem_map_of_mem hq)
    · exact hseen q (List.mem_cons_of_mem _ hq) hmem

theorem extra_spec {l : List Placement} {total : Nat} :
    Yields (l.foldlM (fun total p => fitIndex (total + p.component.privates)) total) (· = total + privates l) := by
  induction l generalizing total with
  | nil => exact .pure rfl
  | cons p l ih =>
    rw [List.foldlM_cons, privates_cons, ← Nat.add_assoc]
    refine .bind (.fitIndex rfl) fun t ht => ?_
    subst ht
    exact ih

/-- **Expanding writes the components out, with a transversal of the same cost.** -/
theorem expand_spec (hplaced : ps.Placed outer) (hs : s.Chooses outer σ) :
    Yields (ps.expand outer s) fun y =>
      ∃ (m : Signature (n + privates ps.toList)) (τ : Equiv.Perm (Fin (n + privates ps.toList)))
      (layout : Layout), m.costRows = ps.writtenOut outer ∧ m.IsTransversal τ ∧ m.costOf τ = outer.costOf σ ∧
        y = ⟨n + privates ps.toList, m, Array.ofFn fun i => (τ i).val, Array.ofFn fun j => (τ.symm j).val,
          m.costOf τ, layout⟩ := by
  let exit : Nat → Nat := fun i => s.columnOf.getD i 0
  have hget : ∀ i < n, s.columnOf[i]? = some (exit i) := by
    intro i hi
    simp [exit, hs.columnOf, hi]
  have hexit : ∀ i : Fin n, exit i = σ i := fun i => by simp [exit, hs.columnOf]
  obtain ⟨picks, hpicks, hcolumns, hperm, hcost⟩ := exists_picks hplaced hs.transversal hexit
  rw [hcolumns] at hperm
  have hall := hperm.subperm
  have hstay : ((ps.kept n).map exit).Subperm (List.range (n + privates ps.toList)) :=
    (List.sublist_append_left _ _).subperm.trans hall
  unfold expand
  rw [if_neg (by simp [hs.columnOf])]
  refine (checkSurrogates_spec (fun p hp => (hplaced.inRange p hp).1) (fun _ _ => List.not_mem_nil)
    hplaced.distinct).bind
    fun _ _ => ?_
  refine extra_spec.bind fun extra hextra => .bind (.fitIndex rfl) fun dimension hdimension => ?_
  rw [Nat.zero_add] at hextra
  subst hextra hdimension
  refine (copyRows_spec exit start_reaches (Nat.le_add_right _ _) (fun i hi => ?_) ?_).bind fun x hx => ?_
  · exact ⟨List.mem_range.mp hi, hget i (List.mem_range.mp hi)⟩
  · exact hstay
  refine (addComponents_spec exit hx hplaced.fits (Nat.le_refl n) (Nat.le_refl _)
    (fun p hp => ?_) hall).bind fun y hy => ?_
  · have hlt := (hplaced.inRange p hp).1
    obtain ⟨c, hc⟩ := hs.transversal ⟨p.surrogate, hlt⟩
    refine ⟨hget _ hlt, c, ?_⟩
    rw [← hplaced.surrogate p hp, hexit ⟨p.surrogate, hlt⟩, outer.cost?_eq ⟨p.surrogate, hlt⟩]
    exact hc
  · exact (finish_spec hy hpicks hcolumns hperm).imp fun z ⟨τ, hrows, hτ, hsum, hz⟩ =>
      ⟨y.matrix, τ, y.layout, hrows, hτ, hsum.trans hcost, hz⟩

end Placements

end SigmaMethod
