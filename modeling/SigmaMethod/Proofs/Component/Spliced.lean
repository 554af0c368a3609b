import SigmaMethod.Proofs.Component.Partition
import SigmaMethod.Proofs.Signature.Calls

/-!
# Components are written side by side

Where the public columns of each placement lie among the outer ones, no entry of an expansion is written over another,
whatever matching the expansion starts from: its rows are those of the problem written out. Nothing else makes sure of
that. A placement whose public columns reach past the outer problem is written over private columns.
-/

namespace SigmaMethod

variable {n dimension first k : Nat} {ps : Placements} {p : Placement} {outer : Signature n} {s : Matching}
  {y : Expanded} {rows : List CostRow}

/-! ## Runs -/

namespace Expansion

variable {x x' : Expansion dimension} {surrogates : List Nat} {i : Nat}

structure Writes (x : Expansion dimension) (rows : List CostRow) (first : Nat) : Prop where
  matrix : x.matrix.HasRows rows
  nextRow : x.nextRow = rows.length
  nextColumn : x.nextColumn = first

theorem Writes.copyRow (h : x.Writes rows first) (hi : i ∉ surrogates)
    (hx : copyRow outer s surrogates x i = .ok x') : x'.Writes (rows ++ [outer.cost? i]) first := by
  obtain ⟨y, z, j, hy, hframe, -, hz, -, rfl⟩ := copyRow_cases hi hx
  obtain ⟨-, hrows⟩ := (addRows_spec (F := fun _ => True) [outer.cost? i] (fun e => (x.nextRow, e.1, e.2)) h.matrix
    (fun r l c => by
      rw [h.nextRow]
      exact mem_copied_entries_iff)
    fun y e _ => (insert_writes y x.nextRow e.1 e.2).mono (fun _ h => h) fun _ _ => trivial).answer hy
  refine ⟨?_, by simp [h.nextRow], ?_⟩
  · rw [pair_frame hz]
    exact hrows
  · rw [pair_frame hz, hframe]
    exact h.nextColumn

theorem Writes.copyRows {is : List Nat} (h : x.Writes rows first)
    (hx : is.foldlM (Expansion.copyRow outer s surrogates) x = .ok x') :
    x'.Writes (rows ++ (is.filter fun i => i ∉ surrogates).map outer.cost?) first := by
  induction is generalizing x rows with
  | nil =>
    cases hx
    rwa [List.filter_nil, List.map_nil, List.append_nil]
  | cons i is ih =>
    rw [List.foldlM_cons] at hx
    obtain ⟨y, hy, hx⟩ := bind_eq_ok_iff.mp hx
    by_cases hi : i ∈ surrogates
    · unfold Expansion.copyRow at hy
      rw [if_pos hi] at hy
      cases hy
      rw [List.filter_cons_of_neg (by simp [hi])]
      exact ih h hx
    · rw [List.filter_cons_of_pos (by simp [hi]), List.map_cons, List.append_cons]
      exact ih (h.copyRow hi hy) hx

theorem Writes.addComponent (h : x.Writes rows first) (hp : p.Fits n) (hfirst : n ≤ first)
    (hx : x.addComponent s p k = .ok x') : x'.Writes (rows ++ p.rowsAt first) (first + p.component.privates) := by
  obtain ⟨y, z, exit, internal, -, hy, hframe, -, hpairs, rfl⟩ := addComponent_cases hx
  rw [h.nextRow, h.nextColumn] at hy
  obtain ⟨-, hrows⟩ := (addRows_spec (F := fun _ => True) (p.rowsAt first) _ h.matrix
    (fun r l c => mem_component_entries_iff hp hfirst) fun y e _ => by
      refine (columnAt_spec p first e.2.1).widen.bind fun l hl => ?_
      subst hl
      exact (insert_writes y _ _ _).mono (fun _ h => h) fun _ _ => trivial).answer hy
  refine ⟨?_, by simp [h.nextRow, Placement.rowsAt], by simp [h.nextColumn]⟩
  rw [hpairs]
  exact hrows

theorem Writes.addComponents {l : List Placement} (h : x.Writes rows first) (hfits : ∀ p ∈ l, p.Fits n)
    (hfirst : n ≤ first)
    (hx : (l.zipIdx k).foldlM (fun (x : Expansion dimension) (p, k) => x.addComponent s p k) x = .ok x') :
    x'.matrix.HasRows (rows ++ Placements.componentRows l first) := by
  induction l generalizing x rows first k with
  | nil =>
    cases hx
    rw [Placements.componentRows, List.append_nil]
    exact h.matrix
  | cons p l ih =>
    rw [List.zipIdx_cons, List.foldlM_cons] at hx
    obtain ⟨y, hy, hx⟩ := bind_eq_ok_iff.mp hx
    rw [Placements.componentRows, ← List.append_assoc]
    exact ih (h.addComponent (hfits p List.mem_cons_self) hfirst hy)
      (fun q hq => hfits q (List.mem_cons_of_mem p hq)) (by omega) hx

end Expansion

namespace Placements

theorem expand_hasRows (hfits : ∀ p ∈ ps.toList, p.Fits n) (hy : ps.expand outer s = .ok y) :
    y.matrix.HasRows (ps.writtenOut outer) := by
  obtain ⟨-, -, -, x, z, hx, hz, hfinish⟩ := expand_cases hy
  have hstart : (Expansion.start (n + privates ps.toList) n).Writes [] n :=
    ⟨fun r l => by simp [Expansion.start], rfl, rfl⟩
  have hrows := (hstart.copyRows hx).addComponents hfits (Nat.le_refl n) hz
  obtain ⟨_, _, _, -, -, -, rfl⟩ := Expansion.finish_cases hfinish
  exact hrows

/-! ## Rows -/

theorem kept_prefix (ps : Placements) {i n : Nat} (hi : i ≤ n) : ps.kept i <+: ps.kept n := by
  induction hi with
  | refl => exact List.prefix_rfl
  | step _ ih =>
    rw [kept_succ]
    exact ih.trans (List.prefix_append _ _)

theorem kept_getElem? {i : Nat} (hi : i < n) (hs : i ∉ ps.surrogates) : (ps.kept n)[(ps.kept i).length]? = some i := by
  obtain ⟨rest, hrest⟩ := kept_prefix ps hi
  rw [kept_succ, if_neg hs, List.append_assoc] at hrest
  rw [← hrest, List.getElem?_append_right (Nat.le_refl _), Nat.sub_self]
  rfl

theorem writtenOut_kept {i : Nat} (hi : i < n) (hs : i ∉ ps.surrogates) :
    (ps.writtenOut outer)[(ps.kept i).length]? = some (outer.cost? i) := by
  have hget := kept_getElem? hi hs
  have hlt := (List.getElem?_eq_some_iff.mp hget).1
  rw [writtenOut, List.getElem?_append_left (by simpa using hlt), List.getElem?_map, hget]
  rfl

theorem componentRows_getElem? {l : List Placement} {e : Nat} (hp : l[k]? = some p) (he : e < p.component.equations) :
    (componentRows l first)[((l.map (·.component.equations)).take k).sum + e]? =
      some (p.rowAt (first + ((l.map (·.component.privates)).take k).sum) e) := by
  induction l generalizing first k with
  | nil => cases hp
  | cons q l ih =>
    have hlength : (q.rowsAt first).length = q.component.equations := by simp [Placement.rowsAt]
    rw [componentRows]
    cases k with
    | zero =>
      cases hp
      rw [List.getElem?_append_left (by simpa [hlength] using he)]
      simp [Placement.rowsAt, he]
    | succ k =>
      rw [List.map_cons, List.take_succ_cons, List.sum_cons, List.getElem?_append_right (by omega), hlength,
        Nat.add_assoc, Nat.add_sub_cancel_left, ih hp, List.map_cons, List.take_succ_cons, List.sum_cons, Nat.add_assoc]

theorem writtenOut_component (k : Fin ps.size) {e : Nat} (he : e < (ps.get k).component.equations) :
    (ps.writtenOut outer)[ps.firstRow n k + e]? = some ((ps.get k).rowAt (ps.firstColumn n k) e) := by
  have hlength : ((ps.kept n).map outer.cost?).length = (ps.kept n).length := List.length_map _
  unfold writtenOut firstRow
  rw [List.getElem?_append_right (by omega), hlength, Nat.add_assoc, Nat.add_sub_cancel_left]
  exact componentRows_getElem? (by simp) he

end Placements

/-! ## Counting entries -/

def CostRow.size (row : CostRow) (width : Nat) : Nat := (List.range width).countP fun l => (row l).isSome

theorem CostRow.size_eq_length {row : CostRow} {width : Nat} {l : List (Nat × Int)} (hnodup : (l.map Prod.fst).Nodup)
    (hmem : ∀ j x, (j, x) ∈ l ↔ row j = some x) (hwidth : ∀ j x, row j = some x → j < width) :
    row.size width = l.length := by
  have hperm : ((List.range width).filter fun j => (row j).isSome).Perm (l.map Prod.fst) := by
    refine (List.perm_ext_iff_of_nodup (List.nodup_range.filter _) hnodup).mpr fun j => ?_
    rw [List.mem_filter, List.mem_range, Option.isSome_iff_exists, List.mem_map]
    constructor
    · rintro ⟨-, x, hx⟩
      exact ⟨(j, x), (hmem j x).mpr hx, rfl⟩
    · rintro ⟨⟨_, x⟩, hx, rfl⟩
      have hx := (hmem _ x).mp hx
      exact ⟨hwidth _ x hx, x, hx⟩
  rw [size, List.countP_eq_length_filter, hperm.length_eq, List.length_map]

theorem Signature.row_size (m : Signature n) (i : Nat) {width : Nat} (hwidth : n ≤ width) :
    CostRow.size (m.cost? i) width = (m.row i).length := by
  refine CostRow.size_eq_length ?_ (fun j x => Signature.mem_row_iff_cost?) fun j x hx => ?_
  · rw [List.Nodup, List.pairwise_map]
    exact (m.row_increasing i).imp Nat.ne_of_lt
  · obtain ⟨-, hj, -⟩ := Signature.cost?_eq_some_iff.mp hx
    omega

theorem Signature.nnz_eq_size (m : Signature n) : m.nnz = (m.costRows.map fun row => CostRow.size row n).sum := by
  rw [nnz_eq_length, entries, List.length_flatMap, costRows_eq, List.map_map]
  refine congrArg List.sum (List.map_congr_left fun i _ => ?_)
  rw [Function.comp_apply, m.row_size i.val (Nat.le_refl n)]
  simp [Signature.row]

theorem sum_countP_eq_length {α : Type} (key : α → Nat) {l : List α} {bound : Nat} (h : ∀ a ∈ l, key a < bound) :
    ((List.range bound).map fun e => l.countP fun a => key a = e).sum = l.length := by
  induction l with
  | nil => simp
  | cons a l ih =>
    have hone : ((List.range bound).map fun e => if key a = e then 1 else 0).sum = 1 := by
      have hcount := List.count_eq_one_of_mem List.nodup_range (List.mem_range.mpr (h a List.mem_cons_self))
      rw [List.sum_map_eq_nsmul_single (key a) _ fun e he _ => if_neg he.symm, hcount, if_pos rfl, one_nsmul]
    simp only [List.countP_cons, decide_eq_true_eq, List.sum_map_add]
    rw [ih fun b hb => h b (List.mem_cons_of_mem a hb), hone, List.length_cons]

theorem ComponentBuilder.entries_nodup (b : ComponentBuilder) : b.entries.Nodup := by
  unfold entries
  refine List.nodup_flatMap.mpr ⟨fun row _ => ?_, ?_⟩
  · refine List.Nodup.map (fun a a' h => ?_) ?_
    · simpa [Prod.ext_iff] using h
    · refine row.2.increasing.imp fun {a a'} hlt heq => ?_
      rw [heq] at hlt
      exact Nat.lt_irrefl _ hlt
  · refine b.costs.increasing.imp fun {a a'} hlt => ?_
    rw [Function.onFun, List.disjoint_left]
    intro e he he'
    obtain ⟨_, -, rfl⟩ := List.mem_map.mp he
    obtain ⟨_, -, heq⟩ := List.mem_map.mp he'
    rw [(Prod.ext_iff.mp heq).1] at hlt
    exact Nat.lt_irrefl _ hlt

namespace Placement

theorem rowAt_size {e width : Nat} (hp : p.Fits n) (hnodup : p.component.entries.Nodup) (hfirst : n ≤ first)
    (hwidth : first + p.component.privates ≤ width) :
    CostRow.size (p.rowAt first e) width = p.component.entries.countP fun entry => entry.1 = e := by
  let own := p.component.entries.filter fun entry => entry.1 = e
  have hown : ∀ entry ∈ own, entry ∈ p.component.entries ∧ entry.1 = e := fun entry he => by
    simpa [own] using he
  have hsize : CostRow.size (p.rowAt first e) width =
      (own.map fun entry => (p.wholeColumn first entry.2.1, entry.2.2)).length := CostRow.size_eq_length ?_ ?_ ?_
  · rw [hsize, List.length_map, List.countP_eq_length_filter]
  · rw [List.map_map]
    refine List.Nodup.map_on ?_ (hnodup.filter _)
    rintro ⟨i, j, x⟩ hmem ⟨i', j', x'⟩ hmem' heq
    obtain ⟨hx, hi⟩ := hown _ hmem
    obtain ⟨hx', hi'⟩ := hown _ hmem'
    obtain rfl : i = i' := hi.trans hi'.symm
    obtain rfl := wholeColumn_injective hp hfirst (hp.1.inRange _ _ _ hx).2 (hp.1.inRange _ _ _ hx').2 heq
    rw [hp.1.functional _ _ _ _ hx hx']
  · intro l x
    rw [rowAt_eq_some_iff hp hfirst, List.mem_map]
    constructor
    · rintro ⟨⟨i, j, x'⟩, hmem, heq⟩
      obtain ⟨he, hi⟩ := hown _ hmem
      cases heq
      cases hi
      exact ⟨j, he, rfl⟩
    · rintro ⟨j, he, rfl⟩
      exact ⟨(e, j, x), by simpa [own] using he, rfl⟩
  · intro l x hx
    have := lt_of_rowAt hp hx
    omega

theorem rowsAt_size {width : Nat} (hp : p.Fits n) (hnodup : p.component.entries.Nodup) (hfirst : n ≤ first)
    (hwidth : first + p.component.privates ≤ width) :
    ((p.rowsAt first).map fun row => CostRow.size row width).sum = p.component.entries.length := by
  rw [rowsAt, List.map_map, ← sum_countP_eq_length (·.1) fun e he => (hp.1.inRange e.1 e.2.1 e.2.2 he).1]
  exact congrArg List.sum (List.map_congr_left fun e _ => rowAt_size hp hnodup hfirst hwidth)

end Placement

namespace Placements

theorem componentRows_size {l : List Placement} {width : Nat} (hfits : ∀ p ∈ l, p.Fits n)
    (hnodup : ∀ p ∈ l, p.component.entries.Nodup) (hfirst : n ≤ first) (hwidth : first + privates l ≤ width) :
    ((componentRows l first).map fun row => CostRow.size row width).sum = (l.map (·.component.entries.length)).sum := by
  induction l generalizing first with
  | nil => rfl
  | cons p l ih =>
    rw [privates_cons] at hwidth
    rw [componentRows, List.map_append, List.sum_append, List.map_cons, List.sum_cons,
      Placement.rowsAt_size (hfits p List.mem_cons_self) (hnodup p List.mem_cons_self) hfirst (by omega),
      ih (fun q hq => hfits q (List.mem_cons_of_mem p hq)) (fun q hq => hnodup q (List.mem_cons_of_mem p hq))
        (by omega) (by omega)]

theorem writtenOut_size (hfits : ∀ p ∈ ps.toList, p.Fits n) (hnodup : ∀ p ∈ ps.toList, p.component.entries.Nodup) :
    ((ps.writtenOut outer).map fun row => CostRow.size row (n + privates ps.toList)).sum =
      ((ps.kept n).map fun i => (outer.row i).length).sum + (ps.toList.map (·.component.entries.length)).sum := by
  rw [writtenOut, List.map_append, List.sum_append, List.map_map,
    componentRows_size hfits hnodup (Nat.le_refl n) (Nat.le_refl _)]
  refine congrArg (· + _) (congrArg List.sum (List.map_congr_left fun i _ => ?_))
  exact outer.row_size i (Nat.le_add_right n _)

end Placements

/-! ## Side by side -/

/-- The column that the layout gives to column `j` of placement number `k`: private columns are its own, public ones
outer columns. -/
def Placement.columnIn (p : Placement) (l : Layout) (k j : Nat) : Outcome Nat :=
  if j < p.component.privates then l.extractedVariable j k else .ok (p.firstPublic + (j - p.component.privates))

structure Expanded.Spliced (y : Expanded) (ps : Placements) (outer : Signature n) : Prop where
  outerRow : ∀ i < n, i ∉ ps.surrogates → ∃ r, y.layout.outerEquation i = .ok (some r) ∧
    ∀ l, y.matrix.cost? r l = outer.cost? i l
  entry : ∀ (k : Fin ps.size) (e j : Nat) (x : Int), (e, j, x) ∈ (ps.get k).component.entries →
    ∃ r l, y.layout.extractedEquation e k = .ok r ∧ (ps.get k).columnIn y.layout k j = .ok l ∧
      y.matrix.cost? r l = some x
  publicColumn : ∀ (k : Fin ps.size) (e j : Nat) (x : Int), (e, j, x) ∈ (ps.get k).component.entries →
    (ps.get k).component.privates ≤ j → (ps.get k).firstPublic + (j - (ps.get k).component.privates) < n
  privateColumn : ∀ k j l, y.layout.extractedVariable j k = .ok l → n ≤ l
  only : ∀ (r l : Nat) (x : Int), y.matrix.cost? r l = some x →
    (∃ i < n, y.layout.outerEquation i = .ok (some r) ∧ outer.cost? i l = some x) ∨
      ∃ (k : Fin ps.size) (e j : Nat), (e, j, x) ∈ (ps.get k).component.entries ∧
        y.layout.extractedEquation e k = .ok r ∧ (ps.get k).columnIn y.layout k j = .ok l
  count : y.matrix.nnz =
    ((ps.kept n).map fun i => (outer.row i).length).sum + (ps.toList.map (·.component.entries.length)).sum

namespace Placements

theorem columnIn_layout (hcounted : n + privates ps.toList < 18446744073709551616) (k : Fin ps.size) (j : Nat) :
    (ps.get k).columnIn (ps.layout n) k j = .ok ((ps.get k).wholeColumn (ps.firstColumn n k) j) := by
  unfold Placement.columnIn Placement.wholeColumn
  rw [layout_extractedVariable hcounted k j]
  split <;> rfl

section written

variable {t : Signature dimension} (h : t.HasRows (ps.writtenOut outer))

include h in
theorem cost?_kept {i : Nat} (hi : i < n) (hs : i ∉ ps.surrogates) (l : Nat) :
    t.cost? (ps.kept i).length l = outer.cost? i l := by
  rw [h, writtenOut_kept hi hs]
  rfl

include h in
theorem cost?_component {k : Fin ps.size} (hfit : (ps.get k).Fits n) {e l : Nat} {x : Int}
    (he : e < (ps.get k).component.equations) :
    t.cost? (ps.firstRow n k + e) l = some x ↔
      ∃ j, (e, j, x) ∈ (ps.get k).component.entries ∧ (ps.get k).wholeColumn (ps.firstColumn n k) j = l := by
  rw [h, writtenOut_component k he]
  exact Placement.rowAt_eq_some_iff hfit (Nat.le_add_right n _)

end written

theorem expand_nnz (hfits : ∀ p ∈ ps.toList, p.Fits n) (hnodup : ∀ p ∈ ps.toList, p.component.entries.Nodup)
    (hy : ps.expand outer s = .ok y) : y.matrix.nnz =
      ((ps.kept n).map fun i => (outer.row i).length).sum + (ps.toList.map (·.component.entries.length)).sum := by
  obtain ⟨hrange, hdistinct, -⟩ := expand_cases hy
  have hdimension := (expand_layout hy).1
  have hlength : (ps.writtenOut outer).length = y.dimension :=
    (writtenOut_length hdistinct hrange).trans hdimension.symm
  rw [y.matrix.nnz_eq_size, (expand_hasRows hfits hy).costRows_eq hlength, hdimension,
    writtenOut_size hfits hnodup]

/-- **An expansion that succeeds has all entries and no others**, if the public columns of each placement lie among the
outer ones. -/
theorem expand_spliced (hbuilt : ∀ p ∈ ps.toList, ∃ b : ComponentBuilder, b.Built ∧ b.build = .ok p.component)
    (hpublics : ∀ p ∈ ps.toList, p.firstPublic + p.component.publics ≤ n) (hy : ps.expand outer s = .ok y) :
    y.Spliced ps outer := by
  have hfits : ∀ p ∈ ps.toList, p.Fits n := fun p hp => ⟨Component.exact_of_built (hbuilt p hp), hpublics p hp⟩
  have hnodup : ∀ p ∈ ps.toList, p.component.entries.Nodup := by
    intro p hp
    obtain ⟨b, hb, hbuild⟩ := hbuilt p hp
    rw [((ComponentBuilder.build_finishes hb.inRange).answer hbuild).entries]
    exact b.entries_nodup
  obtain ⟨hrange, hdistinct, hcounted, -⟩ := expand_cases hy
  obtain ⟨hdimension, hlayout⟩ := expand_layout hy
  obtain ⟨-, row, column, hdivides⟩ := expand_divides hy
  have hrows := expand_hasRows hfits hy
  have hfit : ∀ k : Fin ps.size, (ps.get k).Fits n := fun k => hfits _ (Array.getElem_mem_toList k.isLt)
  have hfirst : ∀ k, n ≤ ps.firstColumn n k := fun k => Nat.le_add_right n _
  constructor
  case outerRow =>
    intro i hi hs
    refine ⟨(ps.kept i).length, ?_, cost?_kept hrows hi hs⟩
    rw [hlayout, layout_outerEquation hi, if_neg hs]
  case entry =>
    intro k e j x hx
    have he := ((hfit k).1.inRange e j x hx).1
    refine ⟨ps.firstRow n k + e, _, ?_, hlayout ▸ columnIn_layout hcounted k j, ?_⟩
    · rw [hlayout, layout_extractedEquation hrange hdistinct hcounted k, if_pos he]
    · exact (cost?_component hrows (hfit k) he).mpr ⟨j, hx, rfl⟩
  case publicColumn =>
    intro k e j x hx hj
    have := ((hfit k).1.inRange e j x hx).2
    have := (hfit k).2
    omega
  case privateColumn =>
    intro k j l hl
    rw [hlayout] at hl
    by_cases hk : k < ps.size
    · rw [layout_extractedVariable hcounted ⟨k, hk⟩, ite_eq_ok_iff] at hl
      obtain ⟨-, hl⟩ := hl
      obtain rfl := Except.ok.inj hl
      exact Nat.le_add_right_of_le (hfirst k)
    · rw [(layout_noComponent (Nat.not_lt.mp hk) j).2] at hl
      cases hl
  case only =>
    intro r l x hx
    obtain ⟨hr, -⟩ := Signature.cost?_eq_some_iff.mp hx
    -- each row is an outer row or an equation of a component
    obtain ⟨line, hline⟩ := row.surjective ⟨r, hr⟩
    rcases line with i | ⟨k, e⟩
    · refine .inl ⟨i.1, i.1.isLt, ?_, ?_⟩
      · rw [hdivides.outerRow i, hline]
      · have hplace := hdivides.outerRow i
        rw [hline, hlayout, layout_outerEquation i.1.isLt, if_neg i.2] at hplace
        cases hplace
        exact (cost?_kept hrows i.1.isLt i.2 l).symm.trans hx
    · have hplace := hdivides.equation k e
      rw [hline, hlayout, layout_extractedEquation hrange hdistinct hcounted k, if_pos e.isLt] at hplace
      obtain rfl := Except.ok.inj hplace
      obtain ⟨j, hj, rfl⟩ := (cost?_component hrows (hfit k) e.isLt).mp hx
      refine .inr ⟨k, e, j, hj, ?_, hlayout ▸ columnIn_layout hcounted k j⟩
      rw [hdivides.equation k e, hline]
  case count => exact expand_nnz hfits hnodup hy

theorem expand_spliced_chain : ∃ y, chain.expand chainOuter chainMatching = .ok y ∧ y.Spliced chain chainOuter ∧
    y.matrix.nnz = 9 := by
  have hpublics : ∀ p ∈ chain.toList, p.firstPublic + p.component.publics ≤ 3 := by decide
  obtain ⟨y, hy⟩ := exists_chain_expanded
  have hspliced := expand_spliced chain_built hpublics hy
  have hkept : ((chain.kept 3).map fun i => (chainOuter.row i).length).sum +
      (chain.toList.map (·.component.entries.length)).sum = 9 := by decide +kernel
  exact ⟨y, hy, hspliced, hspliced.count.trans hkept⟩

/-! ## Public columns that reach past the outer problem -/

/-- The first equation ties the private variable to the second public one, and the second equation gives the first. -/
def overhang : Component where
  publics := 2
  privates := 1
  entries := [(0, 0, -1), (0, 2, 0), (1, 1, 0)]
  matchings := #[some [0, 1], none]
  exitCosts := #[some (-1), none]

/-- The second public variable would be column 2 of an outer problem with two columns. -/
def overhanging : Placements := #[⟨overhang, 1, 1⟩]

def overhangingOuter : Signature 2 := ((Signature.ofIncidences 2 [⟨0, 0, 0⟩, ⟨1, 1, 1⟩]).toOption).getD (.empty 2)

/-- **The private column of the component is its own second public column.** `setPublicParts` refuses the placement, but
`expand` writes the entry of the public variable over that of the private one. -/
theorem expand_overhanging :
    (∀ p ∈ overhanging.toList, ∃ b : ComponentBuilder, b.Built ∧ b.build = .ok p.component) ∧
      (overhanging.setPublicParts 0).result overhangingOuter = refuse (.invalidIndex .variable 2 2) ∧
      ∃ y, overhanging.expand overhangingOuter ⟨-1, #[0, 1], #[0, 1], #[0, 0], #[0, -1]⟩ = .ok y ∧
        y.layout.extractedEquation 0 0 = .ok 1 ∧ y.layout.extractedVariable 0 0 = .ok 2 ∧
        y.matrix.cost? 1 2 = some 0 ∧ y.matrix.nnz = 3 ∧ ¬ y.Spliced overhanging overhangingOuter := by
  have hbuilt : ∃ b : ComponentBuilder, b.Built ∧ b.build = .ok overhang := by
    refine ⟨_, .setPublic 1 0 0 (.setPublic 0 1 0 (.setPrivate 0 0 1 (.empty 2 1))), ?_⟩
    decide +kernel
  refine ⟨fun p hp => ?_, ?_, ?_⟩
  · obtain rfl : p = ⟨overhang, 1, 1⟩ := by simpa [overhanging] using hp
    exact hbuilt
  · rfl
  · have hvalue : (overhanging.expand overhangingOuter ⟨-1, #[0, 1], #[0, 1], #[0, 0], #[0, -1]⟩).map (fun y =>
        (y.matrix.nnz, y.layout.extractedEquation 0 0, y.layout.extractedVariable 0 0, y.matrix.cost? 1 2)) =
          .ok (3, .ok 1, .ok 2, some 0) := by decide +kernel
    cases hy : overhanging.expand overhangingOuter ⟨-1, #[0, 1], #[0, 1], #[0, 0], #[0, -1]⟩ with
    | error e =>
      rw [hy] at hvalue
      cases hvalue
    | ok y =>
      rw [hy] at hvalue
      simp only [Except.map, Except.ok.injEq, Prod.mk.injEq] at hvalue
      obtain ⟨hcount, hequation, hunknown, hcost⟩ := hvalue
      refine ⟨y, rfl, hequation, hunknown, hcost, hcount, fun hspliced => ?_⟩
      -- the entry of the private variable should cost -1 there
      obtain ⟨r, l, hr, hl, hx⟩ := hspliced.entry ⟨0, by decide⟩ 0 0 (-1) (by decide)
      obtain rfl : r = 1 := Except.ok.inj (hr.symm.trans hequation)
      obtain rfl : l = 2 := Except.ok.inj (hl.symm.trans hunknown)
      rw [hcost] at hx
      cases hx

end Placements

end SigmaMethod
