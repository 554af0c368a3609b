import SigmaMethod.Proofs.Component.Steps

/-!
# Expansions that succeed

Whatever outer problem and matching an expansion starts from, each row gets a column at most once, so a column that
names a row is the last one to have done so. If in the end no row and no column is left without a partner, the two
directions are inverse, and the final count finds an entry at each pair.
-/

namespace SigmaMethod

variable {n dimension row next : Nat}

namespace Expansion

variable {x x' : Expansion dimension}

structure Assembled (x : Expansion dimension) (next : Nat) : Prop where
  columnOf_size : x.columnOf.size = dimension
  rowOf_size : x.rowOf.size = dimension
  used : ∀ r j : Nat, x.columnOf[r]? = some (some j) → r < next
  back : ∀ r j : Nat, x.rowOf[j]? = some (some r) → x.columnOf[r]? = some (some j)

theorem start_assembled : (start dimension n).Assembled 0 where
  columnOf_size := by simp [start]
  rowOf_size := by simp [start]
  used r j h := by simp [start, Array.getElem?_replicate] at h
  back r j h := by simp [start, Array.getElem?_replicate] at h

theorem Assembled.congr (h : x.Assembled next) (hcolumnOf : x'.columnOf = x.columnOf) (hrowOf : x'.rowOf = x.rowOf) :
    x'.Assembled next :=
  ⟨hcolumnOf ▸ h.columnOf_size, hrowOf ▸ h.rowOf_size, hcolumnOf ▸ h.used, hcolumnOf ▸ hrowOf ▸ h.back⟩

theorem Assembled.pair {i j : Nat} (h : x.Assembled next) (hi : next ≤ i) (hx : x.pair i j = .ok x') :
    x'.Assembled (i + 1) := by
  obtain ⟨hisize, hjsize, rfl⟩ := pair_eq_ok_iff.mp hx
  refine ⟨by simp [h.columnOf_size], by simp [h.rowOf_size], fun r l hr => ?_, fun r l hl => ?_⟩
  · rw [Array.getElem?_set] at hr
    split at hr
    · omega
    · have := h.used r l hr
      omega
  · rw [Array.getElem?_set] at hl ⊢
    by_cases hlj : j = l
    · rw [if_pos hlj] at hl
      cases hl
      rw [if_pos rfl, hlj]
    · rw [if_neg hlj] at hl
      have hold := h.back r l hl
      have := h.used r l hold
      rw [if_neg (by omega)]
      exact hold

theorem Assembled.pairEach {internal : List Nat} {place : Nat → Outcome Nat} {k : Nat} (h : x.Assembled (row + k))
    (hx : (internal.zipIdx k).foldlM (fun x (j, i) => do x.pair (row + i) (← place j)) x = .ok x') :
    x'.Assembled (row + k + internal.length) := by
  induction internal generalizing x k with
  | nil =>
    cases hx
    exact h
  | cons j internal ih =>
    rw [List.zipIdx_cons, List.foldlM_cons] at hx
    obtain ⟨y, hy, hx⟩ := bind_eq_ok_iff.mp hx
    obtain ⟨l, -, hy⟩ := bind_eq_ok_iff.mp hy
    have hnext : y.Assembled (row + (k + 1)) := h.pair (Nat.le_refl _) hy
    have hrest := ih hnext hx
    rwa [List.length_cons, Nat.add_comm internal.length, Nat.add_assoc, ← Nat.add_assoc k, ← Nat.add_assoc]

/-! ## Rows and components -/

variable {outer : Signature n} {s : Matching} {p : Placement} {surrogates : List Nat} {i k : Nat}

theorem Assembled.copyRow (h : x.Assembled x.nextRow) (hx : copyRow outer s surrogates x i = .ok x') :
    x'.Assembled x'.nextRow := by
  by_cases hi : i ∈ surrogates
  · unfold Expansion.copyRow at hx
    rw [if_pos hi] at hx
    cases hx
    exact h
  · obtain ⟨y, z, j, -, hframe, -, hz, -, rfl⟩ := copyRow_cases hi hx
    have hentries : y.Assembled x.nextRow := h.congr (by rw [hframe]) (by rw [hframe])
    exact (hentries.pair (Nat.le_refl _) hz).congr rfl rfl

theorem Assembled.addComponent (hp : p.component.Exact) (h : x.Assembled x.nextRow)
    (hx : x.addComponent s p k = .ok x') : x'.Assembled x'.nextRow := by
  obtain ⟨y, z, exit, internal, ⟨-, hexit, hinternal⟩, -, hframe, hz, -, rfl⟩ := addComponent_cases hx
  have hlength : internal.length = p.component.equations := by
    simpa [Component.equations] using (hp.matching_perm hexit hinternal).length_eq
  have hentries : y.Assembled x.nextRow := h.congr (by rw [hframe]) (by rw [hframe])
  have hpairs := hentries.pairEach hz
  rw [hlength] at hpairs
  exact hpairs.congr rfl rfl

/-! ## The final count -/

theorem exists_picks_of_total {m : Signature dimension} {columns : List Nat} {total total' : Int}
    (h : (columns.zipIdx k).foldlM (fun total (j, i) => do
      match m.cost? i j with
      | some y => fit (total + y)
      | none => refuse (.compression (.absentEntry i j))) total = .ok total') :
    ∃ picks : List (Nat × Int), picks.map Prod.fst = columns ∧ total' = total + (picks.map Prod.snd).sum ∧
      ∀ (i : Nat) (pick : Nat × Int), picks[i]? = some pick → m.cost? (k + i) pick.1 = some pick.2 := by
  induction columns generalizing k total with
  | nil =>
    cases h
    exact ⟨[], rfl, by simp, fun i pick hpick => by simp at hpick⟩
  | cons j columns ih =>
    rw [List.zipIdx_cons, List.foldlM_cons] at h
    obtain ⟨t, ht, h⟩ := bind_eq_ok_iff.mp h
    dsimp only at ht
    split at ht
    · rename_i y hy
      obtain ⟨-, rfl⟩ := fit_eq_ok_iff.mp ht
      obtain ⟨picks, rfl, rfl, hpicks⟩ := ih h
      refine ⟨(j, y) :: picks, rfl, by simp [Int.add_assoc], fun i pick hpick => ?_⟩
      cases i with
      | zero =>
        cases hpick
        exact hy
      | succ i =>
        rw [← Nat.add_assoc, Nat.add_right_comm]
        exact hpicks i pick hpick
    · cases ht

theorem Assembled.columns_getElem? {columns rows : List Nat} (h : x.Assembled next)
    (hcolumns : x.columnOf.toList = columns.map some) (hrows : x.rowOf.toList = rows.map some) {j : Nat}
    (hj : j < rows.length) : columns[rows[j]]? = some j := by
  have hrow : x.rowOf[j]? = some (some rows[j]) := by
    rw [← Array.getElem?_toList, hrows, List.getElem?_map, List.getElem?_eq_getElem hj]
    rfl
  have hcolumn := h.back _ _ hrow
  rw [← Array.getElem?_toList, hcolumns] at hcolumn
  simpa using hcolumn

theorem picks_of_cost? {m : Signature dimension} {picks : List (Nat × Int)} (hlength : picks.length = dimension)
    (h : ∀ (i : Nat) (pick : Nat × Int), picks[i]? = some pick → m.cost? i pick.1 = some pick.2) :
    Picks m.costRows picks := by
  refine List.forall₂_iff_get.mpr ⟨by simp [Signature.costRows, hlength], fun i _ hi => ?_⟩
  simpa [Signature.costRows] using h i picks[i] (List.getElem?_eq_getElem hi)

theorem Assembled.finish {y : Expanded} (h : x.Assembled next) (hy : x.finish = .ok y) :
    ∃ σ, Matching.Chooses ⟨y.cost, y.columnOf, y.rowOf, #[], #[]⟩ y.matrix σ := by
  obtain ⟨columns, rows, cost, hcolumns, hrows, hcost, rfl⟩ := finish_cases hy
  have hlength : columns.length = dimension := by
    rw [← List.length_map, ← hcolumns, Array.length_toList, h.columnOf_size]
  have hlength' : rows.length = dimension := by
    rw [← List.length_map, ← hrows, Array.length_toList, h.rowOf_size]
  -- every column is there, since it is the column of the row that it names
  have hsub : List.range dimension ⊆ columns := by
    intro j hj
    rw [List.mem_range, ← hlength'] at hj
    exact List.mem_of_getElem? (h.columns_getElem? hcolumns hrows hj)
  have hperm := (List.subperm_of_subset List.nodup_range hsub).perm_of_length_le (by simp [hlength])
  obtain ⟨picks, rfl, rfl, hpicks⟩ := exists_picks_of_total hcost
  rw [List.length_map] at hlength
  have hpicks : Picks x.matrix.costRows picks := picks_of_cost? hlength fun i pick hi => by
    simpa using hpicks i pick hi
  obtain ⟨σ, hσ, rfl⟩ := Signature.exists_transversal hpicks hperm.symm
  refine ⟨σ, ?_, ?_, ?_, hσ⟩
  · rw [Signature.picksOf_fst, List.toArray_ofFn]
  · refine Array.ext (by simp [hlength']) fun j hj hj' => ?_
    have hj : j < rows.length := by simpa using hj
    have hcolumn := h.columns_getElem? hcolumns hrows hj
    rw [Signature.picksOf_fst, List.getElem?_ofFn] at hcolumn
    obtain ⟨hrow, hcolumn⟩ := Option.dite_none_right_eq_some.mp hcolumn
    have hσj : σ ⟨rows[j], hrow⟩ = ⟨j, by omega⟩ := Fin.ext (Option.some.inj hcolumn)
    simp [← hσj]
  · rw [Signature.picksOf_cost, Int.zero_add]

end Expansion

/-- **An expansion that succeeds comes with a transversal**, whatever outer problem and matching it starts from. -/
theorem Placements.expand_chooses {ps : Placements} {outer : Signature n} {s : Matching} {y : Expanded}
    (hexact : ∀ p ∈ ps.toList, p.component.Exact) (hy : ps.expand outer s = .ok y) :
    ∃ σ, Matching.Chooses ⟨y.cost, y.columnOf, y.rowOf, #[], #[]⟩ y.matrix σ := by
  obtain ⟨-, -, -, x, z, hx, hz, hy⟩ := expand_cases hy
  have hrows : x.Assembled x.nextRow :=
    foldlM_invariant (I := fun x : Expansion _ => x.Assembled x.nextRow)
      (fun _ _ _ _ h h' => h.copyRow h') Expansion.start_assembled hx
  have hcomponents : z.Assembled z.nextRow := by
    refine foldlM_invariant (I := fun x : Expansion _ => x.Assembled x.nextRow)
      (fun e he _ _ h h' => h.addComponent (hexact e.1 ?_) h') hrows hz
    exact List.fst_mem_of_mem_zipIdx he
  exact hcomponents.finish hy

end SigmaMethod
