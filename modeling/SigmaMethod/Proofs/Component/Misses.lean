import SigmaMethod.Proofs.Component.Partition
import SigmaMethod.Proofs.Fits

/-!
# Columns that miss the expansion

An expansion looks up the column of each outer row in a record whose columns nobody has tested. It misses its vectors
exactly where an outer row that stays names a column behind the last one. Components are safe: the column of an exit
holds an entry of the component, which is written, and refused, before the pair.
-/

namespace SigmaMethod

variable {n dimension row column k : Nat} {outer : Signature n} {s : Matching} {ps : Placements}

namespace Expansion

variable {x x' : Expansion dimension} {p : Placement} {surrogates : List Nat}

structure Sized (x : Expansion dimension) (n row column : Nat) : Prop where
  columnOf : x.columnOf.size = dimension
  rowOf : x.rowOf.size = dimension
  outerRows : x.layout.outerRows.size = n
  nextRow : x.nextRow = row
  nextColumn : x.nextColumn = column

theorem start_sized : (start dimension n).Sized n 0 n where
  columnOf := by simp [start]
  rowOf := by simp [start]
  outerRows := by simp [start]
  nextRow := rfl
  nextColumn := rfl

theorem Sized.pair_endsAs {i j : Nat} (h : x.Sized n row column) (hi : i < dimension) :
    EndsAs (x.pair i j) (if j < dimension then .ok () else .error .outOfBounds) fun x' => x'.Sized n row column := by
  unfold Expansion.pair
  refine .bind_left (.writeAt (P := (·.size = dimension)) (by rw [h.columnOf]; exact hi) (by simp [h.columnOf]))
    fun columnOf hcolumnOf => ?_
  by_cases hj : j < dimension
  · rw [if_pos hj]
    refine (Succeeds.writeAt (P := (·.size = dimension)) (by rw [h.rowOf]; exact hj) (by simp [h.rowOf])).bind
      fun rowOf hrowOf => .pure ?_
    exact ⟨hcolumnOf, hrowOf, h.outerRows, h.nextRow, h.nextColumn⟩
  · rw [if_neg hj, writeAt, dif_neg (by rw [h.rowOf]; exact hj)]
    rfl

/-! ## Outer rows -/

def columnTest (dimension : Nat) (s : Matching) (surrogates : List Nat) (i : Nat) : Outcome Unit :=
  if i ∈ surrogates then .ok ()
  else if s.columnOf.getD i 0 < dimension then .ok ()
  else .error .outOfBounds

theorem columnTest_eq_error_iff {i : Nat} {f : Failure} : columnTest dimension s surrogates i = .error f ↔
    (i ∉ surrogates ∧ dimension ≤ s.columnOf.getD i 0) ∧ f = .outOfBounds := by
  unfold columnTest
  rw [← Nat.not_lt]
  by_cases hi : i ∈ surrogates
  · simp [hi]
  · by_cases hlt : s.columnOf.getD i 0 < dimension
    · rw [if_neg hi, if_pos hlt]
      exact ⟨fun h => (nomatch h), fun h => absurd hlt h.1.2⟩
    · rw [if_neg hi, if_neg hlt, Except.error.injEq]
      exact ⟨fun h => ⟨⟨hi, hlt⟩, h.symm⟩, fun h => h.2.symm⟩

theorem Sized.copyRow_endsAs {i : Nat} (h : x.Sized n row column) (hrow : row < dimension) (hn : n ≤ dimension)
    (hs : s.columnOf.size = n) (hi : i < n) :
    EndsAs (copyRow outer s surrogates x i) (columnTest dimension s surrogates i) fun x' =>
      x'.Sized n (row + if i ∈ surrogates then 0 else 1) column := by
  unfold copyRow columnTest
  by_cases hsurrogate : i ∈ surrogates
  · rw [if_pos hsurrogate, if_pos hsurrogate, if_pos hsurrogate]
    exact Succeeds.ok h
  rw [if_neg hsurrogate, if_neg hsurrogate, if_neg hsurrogate, h.nextRow]
  refine .bind_left (P := fun y : Expansion dimension => y.Sized n row column) (.foldlM h fun e he y hy => ?_)
    fun y hy => ?_
  · obtain ⟨-, hj, -⟩ := Signature.cost?_eq_some_iff.mp (Signature.mem_row_iff_cost?.mp he)
    exact (Signature.insert_succeeds y.matrix e.2 hrow (by omega)).bind fun t _ =>
      .pure ⟨hy.columnOf, hy.rowOf, hy.outerRows, hy.nextRow, hy.nextColumn⟩
  refine .bind_left (.lookAt (P := (· = s.columnOf.getD i 0)) (hs ▸ hi) (by simp [hs, hi])) fun j hj => ?_
  subst hj
  refine (hy.pair_endsAs hrow).bind_right fun z hz => ?_
  refine (Succeeds.writeAt (P := (·.size = n)) (by rw [hz.outerRows]; exact hi) (by simp [hz.outerRows])).bind
    fun outerRows houter => .pure ?_
  exact ⟨hz.columnOf, hz.rowOf, houter, rfl, hz.nextColumn⟩

theorem copyRows_endsAs (outer : Signature n) (ps : Placements) (hn : n ≤ dimension) (hs : s.columnOf.size = n) :
    EndsAs ((List.range n).foldlM (copyRow outer s ps.surrogates) (start dimension n))
      ((List.range n).forM (columnTest dimension s ps.surrogates)) fun x => x.Sized n (ps.kept n).length n := by
  refine EndsAs.foldlM_done (I := fun done (x : Expansion dimension) =>
    x.Sized n (done.filter fun i => i ∉ ps.surrogates).length n) start_sized fun done i x hdone h => ?_
  have hi : i < n := List.mem_range.mp (hdone.subset (by simp))
  have hlength : done.length + 1 ≤ n := by simpa using hdone.length_le
  have hrow := List.length_filter_le (fun i => i ∉ ps.surrogates) done
  have hlast : ([i].filter fun i => i ∉ ps.surrogates).length = if i ∈ ps.surrogates then 0 else 1 := by
    rw [List.filter_singleton]
    by_cases hsurrogate : i ∈ ps.surrogates <;> simp only [hsurrogate] <;> rfl
  rw [List.filter_append, List.length_append, hlast]
  exact h.copyRow_endsAs (by omega) hn hs hi

/-! ## Components -/

theorem Sized.insertEach {l : List (Nat × Nat × Int)} (h : x.Sized n row column) :
    Delivers (l.foldlM (fun (x : Expansion dimension) (i, j, cost) => do
        x.insert (row + i) (← columnAt p column j) cost) x)
      (fun y : Expansion dimension => y.Sized n row column ∧ ∀ e ∈ l, p.wholeColumn column e.2.1 < dimension)
      fun _ => True := by
  refine Delivers.foldlM_done (I := fun (done : List (Nat × Nat × Int)) (y : Expansion dimension) =>
    y.Sized n row column ∧ ∀ e ∈ done, p.wholeColumn column e.2.1 < dimension) ⟨h, fun _ he => nomatch he⟩ ?_
  rintro done ⟨i, j, c⟩ y - ⟨hy, hdone⟩
  refine (columnAt_spec p column j).widen.bind fun l hl => ?_
  subst hl
  refine (y.insert_writes _ _ c).mono (fun y' ⟨hframe, hput⟩ => ?_) fun _ _ => trivial
  have hstored : y'.matrix.cost? (row + i) (p.wholeColumn column j) = some c := by rw [hput, if_pos ⟨rfl, rfl⟩]
  refine ⟨?_, fun e he => ?_⟩
  · rw [hframe]
    exact ⟨hy.columnOf, hy.rowOf, hy.outerRows, hy.nextRow, hy.nextColumn⟩
  · rcases List.mem_append.mp he with he | he
    · exact hdone e he
    · cases List.mem_singleton.mp he
      exact (Signature.cost?_eq_some_iff.mp hstored).2.1

theorem Sized.addComponent (h : x.Sized n row column) (hp : p.component.Exact)
    (hrow : row + p.component.equations ≤ dimension) (hs : p.surrogate < s.columnOf.size) :
    Delivers (x.addComponent s p k)
      (fun x' => x'.Sized n (row + p.component.equations) (column + p.component.privates)) fun _ => True := by
  have hexit : Delivers (exitOf s k p) (· < p.component.publics) fun _ => True := by
    unfold exitOf
    refine .bind (.lookAt (P := fun _ => True) hs trivial) fun j _ => ?_
    split
    · rename_i hpublic
      simp only [Bool.and_eq_true, decide_eq_true_eq] at hpublic
      exact .pure hpublic.2
    · exact .bind (.fitIndex (P := fun _ => True) trivial) fun _ _ => .refuse trivial
  unfold Expansion.addComponent
  refine hexit.bind fun exit hexit => ?_
  obtain ⟨solved, hmatching, -⟩ := hp.exits exit hexit
  refine (matching_spec hexit hmatching).widen.bind fun internal hinternal => ?_
  subst hinternal
  cases solved with
  | none => exact .refuse trivial
  | some solved =>
    dsimp only [Option.map_some]
    rw [h.nextRow, h.nextColumn]
    refine h.insertEach.bind fun y ⟨hy, hwritten⟩ => ?_
    refine .bind (P := fun z : Expansion dimension => z.Sized n row column) (.foldlM hy fun e he z hz => ?_)
      fun z hz => .pure ⟨hz.columnOf, hz.rowOf, hz.outerRows, rfl, rfl⟩
    obtain ⟨j, i⟩ := e
    obtain ⟨c, hc⟩ := hp.exists_entry hexit hmatching (List.mem_zipIdx_iff_getElem?.mp he)
    have hi := (hp.inRange i j c hc).1
    refine (columnAt_spec p column j).widen.bind fun l hl => ?_
    subst hl
    have hpair := hz.pair_endsAs (j := p.wholeColumn column j) (show row + i < dimension by omega)
    rw [if_pos (hwritten _ hc)] at hpair
    obtain ⟨z', hz', hsized⟩ := hpair
    rw [hz']
    exact .ok hsized

theorem Sized.addComponents {l : List Placement} (h : x.Sized n row column)
    (hl : ∀ p ∈ l, p.component.Exact ∧ p.surrogate < s.columnOf.size)
    (hrow : row + (l.map (·.component.equations)).sum ≤ dimension) :
    Delivers ((l.zipIdx k).foldlM (fun x (p, k) => x.addComponent s p k) x) (fun _ => True) fun _ => True := by
  induction l generalizing x row column k with
  | nil => exact .pure trivial
  | cons p l ih =>
    obtain ⟨⟨hp, hs⟩, hl⟩ := List.forall_mem_cons.mp hl
    rw [List.map_cons, List.sum_cons, ← Nat.add_assoc] at hrow
    rw [List.zipIdx_cons, List.foldlM_cons]
    exact (h.addComponent hp (by omega) hs).bind fun y hy => ih hy hl hrow

theorem finish_safe (x : Expansion dimension) : Delivers x.finish (fun _ => True) fun _ => True := by
  have hpartners : ∀ fault xs, Delivers (allPartners fault xs) (fun _ => True) fun _ => True := by
    intro fault xs
    refine (Delivers.mapM (R := fun _ _ => True) fun partner _ => ?_).imp fun _ _ => trivial
    cases partner with
    | none => exact .refuse trivial
    | some j => exact .ok trivial
  unfold finish
  refine (hpartners _ _).bind fun columns _ => (hpartners _ _).bind fun rows _ => ?_
  refine Delivers.bind (P := fun _ => True) (.foldlM trivial fun e _ total _ => ?_) fun _ _ => .pure trivial
  dsimp only
  split
  · exact .fit trivial
  · exact .refuse trivial

end Expansion

/-! ## Whole expansions -/

namespace Placements

open Expansion

theorem checkSurrogates_fits {seen : List Nat} {l : List Placement} :
    Fits (checkSurrogates n seen l) fun _ => True := by
  induction l generalizing seen with
  | nil => exact .ok trivial
  | cons p l ih =>
    unfold checkSurrogates
    refine (Fits.checkIndex (P := fun _ => True) trivial).bind fun _ _ => ?_
    split
    · exact .refuse
    · exact ih

theorem checkSurrogates_tests {l : List Placement} : Delivers (checkSurrogates n [] l)
    (fun _ => (∀ p ∈ l, p.surrogate < n) ∧ (l.map (·.surrogate)).Nodup) fun _ => True := by
  cases h : checkSurrogates n [] l with
  | ok u =>
    obtain ⟨hrange, -, hdistinct⟩ := checkSurrogates_eq_ok_iff.mp h
    exact .ok ⟨hrange, hdistinct⟩
  | error f =>
    obtain ⟨r, rfl⟩ := checkSurrogates_fits.exists_refusal h
    exact .refuse trivial

theorem extra_eq {l : List Placement} {total : Nat} (h : total + privates l < 18446744073709551616) :
    l.foldlM (fun total p => fitIndex (total + p.component.privates)) total = .ok (total + privates l) := by
  induction l generalizing total with
  | nil => rfl
  | cons p l ih =>
    rw [privates_cons, ← Nat.add_assoc] at h ⊢
    rw [List.foldlM_cons, fitIndex_of_lt (by omega), ok_bind, ih h]

theorem expand_eq_outOfBounds_iff (hexact : ∀ p ∈ ps.toList, p.component.Exact) :
    ps.expand outer s = .error .outOfBounds ↔ s.columnOf.size = n ∧ (∀ p ∈ ps.toList, p.surrogate < n) ∧
      ps.surrogates.Nodup ∧ n + privates ps.toList < 18446744073709551616 ∧
      ∃ i j, s.columnOf[i]? = some j ∧ i ∉ ps.surrogates ∧ n + privates ps.toList ≤ j := by
  constructor
  · intro h
    by_contra hno
    refine Delivers.ne_outOfBounds (P := fun _ => True) (F := fun _ => True) ?_ h
    unfold expand
    split
    · exact .refuse trivial
    rename_i hsize
    rw [ne_eq, Decidable.not_not] at hsize
    refine checkSurrogates_tests.bind fun _ ⟨hrange, hdistinct⟩ => ?_
    refine extra_spec.widen.bind fun extra hextra => Delivers.fitIndex_lt.bind fun dimension hdimension => ?_
    obtain ⟨rfl, hcounted⟩ := hdimension
    obtain rfl : extra = privates ps.toList := hextra.trans (Nat.zero_add _)
    have hlines := lines_eq hrange hdistinct
    rw [sum_sizes (·.component.equations)] at hlines
    have hcopied := copyRows_endsAs outer ps (Nat.le_add_right n (privates ps.toList)) hsize
    cases htests : (List.range n).forM (columnTest (n + privates ps.toList) s ps.surrogates) with
    | ok _ =>
      rw [htests] at hcopied
      obtain ⟨x, hx, hsized⟩ := hcopied
      refine .bind (P := fun y : Expansion _ => y = x) (hx ▸ .ok rfl) fun y hy => ?_
      subst hy
      refine (hsized.addComponents (fun p hp => ⟨hexact p hp, hsize ▸ hrange p hp⟩) hlines.le).bind fun z _ => ?_
      exact z.finish_safe
    | error f =>
      obtain ⟨i, hi, hf, -⟩ := forM_range_eq_error_iff.mp htests
      obtain ⟨⟨hstays, hlast⟩, -⟩ := columnTest_eq_error_iff.mp hf
      have hcolumn : s.columnOf[i]? = some (s.columnOf.getD i 0) := by simp [hsize, hi]
      exact absurd ⟨hsize, hrange, hdistinct, hcounted, i, _, hcolumn, hstays, hlast⟩ hno
  · rintro ⟨hsize, hrange, hdistinct, hcounted, i, j, hj, hstays, hlast⟩
    have hi : i < n := hsize ▸ (Array.getElem?_eq_some_iff.mp hj).1
    have hlast : n + privates ps.toList ≤ s.columnOf.getD i 0 := by simpa [hj] using hlast
    have htests : (List.range n).forM (columnTest (n + privates ps.toList) s ps.surrogates) = .error .outOfBounds :=
      (forM_range_eq_error_iff_exists fun _ _ h => (columnTest_eq_error_iff.mp h).2).mpr
        ⟨i, hi, columnTest_eq_error_iff.mpr ⟨⟨hstays, hlast⟩, rfl⟩⟩
    have hcopied := copyRows_endsAs outer ps (Nat.le_add_right n (privates ps.toList)) hsize
    have hmissed := hcopied.eq_error_iff.mpr htests
    have hcheck : checkSurrogates n [] ps.toList = .ok () :=
      checkSurrogates_eq_ok_iff.mpr ⟨hrange, fun _ _ => List.not_mem_nil, hdistinct⟩
    have hextra : ps.toList.foldlM (fun total p => fitIndex (total + p.component.privates)) 0 =
        .ok (0 + privates ps.toList) := extra_eq (by omega)
    rw [Nat.zero_add] at hextra
    unfold expand
    rw [if_neg (not_not.mpr hsize), hcheck, ok_bind, hextra, ok_bind, fitIndex_of_lt hcounted, ok_bind]
    dsimp only
    rw [hmissed]
    rfl

end Placements

end SigmaMethod
